import Umanet.Fast.Ecn
import Umanet.Fast.EthRx
import Umanet.Fast.Requeue

namespace Umanet

open Framework

/-- The bytes of a checksum of the frame, which the sender's NIC and fix_cksum compute anew. -/
def CksumByte (d : Data) (i : Nat) : Prop :=
  etherType d=etherTypeIpv4 ∧ (i=24 ∨ i=25 ∨
    (nextProtoId d=ipprotoTcp ∨ nextProtoId d=ipprotoUdp) ∧ (i=l4CksumAt d ∨ i=l4CksumAt d+1))

instance (d : Data) (i : Nat) : Decidable (CksumByte d i) := inferInstanceAs (Decidable (_ ∧ _))

/-- The frame on the other side of the dataplane: as it was behind the Ethernet addresses, the
congestion mark and the checksums apart. -/
structure Kept (d f : Data) : Prop where
  bytes : ∀ i,12 ≤ i → i≠15 → ¬CksumByte d i → f i=d i
  tos : f 15=d 15 ∨ etherType d=etherTypeIpv4 ∧ d 15 &&& 0x03≠0 ∧ f 15=d 15 ||| 0x03

def Intact (d g : Data) : Prop := ∀ i,¬CksumByte d i → g i=d i

section
variable {d f g : Data} {i : Nat}

theorem CksumByte.place (h : CksumByte d i) : 20 ≤ i ∧ i≠22 ∧ i≠23 := by
  obtain ⟨-,rfl | rfl | ⟨-,h⟩⟩ := h
  · decide
  · decide
  · unfold l4CksumAt l4Offset at h
    split at h <;> omega

theorem not_cksumByte (h : i < 20 ∨ i=22 ∨ i=23) : ¬CksumByte d i := by
  intro hc
  have hplace := hc.place
  omega

theorem fixCksum_out (e : Endian) (m : Mbuf) (hc : ¬CksumByte m.data i) :
    (fixCksum e m).data i=m.data i := by
  by_cases hty : etherType m.data=etherTypeIpv4
  · have hne : i≠24 ∧ i≠25 := ⟨fun e => hc ⟨hty,.inl e⟩,fun e => hc ⟨hty,.inr (.inl e)⟩⟩
    have hsame : SameHeader m.data (fillCksum e 24 (ipv4Cksum e) m.data) :=
      fillCksum_sameHeader (.inl rfl) _
    have hip : fillCksum e 24 (ipv4Cksum e) m.data i=m.data i := by
      rw [fillCksum_eq_store16,store16_out (by omega)]
    have hl4 (hproto : nextProtoId m.data=ipprotoTcp ∨ nextProtoId m.data=ipprotoUdp)
        {o : Nat} (ho : o=l4CksumAt m.data) :
        fillCksum e o (udptcpCksum e) (fillCksum e 24 (ipv4Cksum e) m.data) i=m.data i := by
      have hout : i≠o ∧ i≠o+1 := by
        subst ho
        exact ⟨fun e => hc ⟨hty,.inr (.inr ⟨hproto,.inl e⟩)⟩,
          fun e => hc ⟨hty,.inr (.inr ⟨hproto,.inr e⟩)⟩⟩
      rw [fillCksum_eq_store16 (o:=o),store16_out (by omega)]
      exact hip
    simp only [fixCksum]
    rw [if_pos hty,hsame.nextProtoId,hsame.l4Offset]
    split
    · next htcp => exact hl4 (.inl htcp) (by rw [l4CksumAt,if_pos htcp])
    · next htcp =>
      split
      · next hudp => exact hl4 (.inr hudp) (by rw [l4CksumAt,if_neg htcp])
      · exact hip
  · simp only [fixCksum]
    rw [if_neg hty]

namespace Kept

theorem head (h : Kept d f) (hi : 12 ≤ i) (h15 : i≠15) (hlt : i < 20 ∨ i=22 ∨ i=23) : f i=d i :=
  h.bytes i hi h15 (not_cksumByte hlt)

theorem etherType (h : Kept d f) : etherType f=etherType d := by
  rw [Umanet.etherType,Umanet.etherType,be16,be16,h.head (by decide) (by decide) (by decide),
    h.head (by decide) (by decide) (by decide)]

theorem nextProtoId (h : Kept d f) : nextProtoId f=nextProtoId d :=
  h.head (by decide) (by decide) (by decide)

theorem ihl (h : Kept d f) : ihl f=ihl d := by
  rw [Umanet.ihl,Umanet.ihl,h.head (by decide) (by decide) (by decide)]

theorem l4Offset (h : Kept d f) : l4Offset f=l4Offset d := by
  rw [Umanet.l4Offset,Umanet.l4Offset,h.ihl]

theorem cksumByte (h : Kept d f) (i : Nat) : CksumByte f i ↔ CksumByte d i := by
  rw [CksumByte,CksumByte,h.etherType,h.nextProtoId,l4CksumAt,l4CksumAt,h.nextProtoId,h.l4Offset]

theorem refl (d : Data) : Kept d d := ⟨fun _ _ _ _ => rfl,.inl rfl⟩

theorem trans (h : Kept d f) (h' : Kept f g) : Kept d g := by
  refine ⟨fun i hi h15 hc => ?_,?_⟩
  · rw [h'.bytes i hi h15 (mt (h.cksumByte i).mp hc),h.bytes i hi h15 hc]
  · rcases h.tos with ht | ⟨hty,hect,ht⟩
    · rcases h'.tos with ht' | ⟨hty',hect',ht'⟩
      · exact .inl (ht'.trans ht)
      · rw [ht] at hect' ht'
        exact .inr ⟨h.etherType.symm.trans hty',hect',ht'⟩
    · refine .inr ⟨hty,hect,?_⟩
      rcases h'.tos with ht' | ⟨-,-,ht'⟩
      · exact ht'.trans ht
      · rw [ht',ht,BitVec.or_assoc,BitVec.or_self]

theorem of_addresses (h : ∀ i,12 ≤ i → f i=d i) : Kept d f :=
  ⟨fun i hi _ _ => h i hi,.inl (h 15 (by decide))⟩

theorem of_intact (h : Intact d f) : Kept d f :=
  ⟨fun i _ _ hc => h i hc,.inl (h 15 (not_cksumByte (by decide)))⟩

theorem mark (e : Endian) (d : Data) : Kept d (ecnMarkPacket (hdrCksum e) d) := by
  by_cases hpass : Umanet.etherType d≠etherTypeIpv4 ∨ d 15 &&& 0x03=0
  · rw [ecnMarkPacket_passes hpass]
    exact refl d
  · obtain ⟨hty,hect⟩ := not_or.mp hpass
    have hty' := not_not.mp hty
    rw [ecnMarkPacket_marks hty' hect,fillCksum_eq_store16]
    refine ⟨fun i _ h15 hc => ?_,.inr ⟨hty',hect,?_⟩⟩
    · have hne : i≠24 ∧ i≠25 := ⟨fun e => hc ⟨hty',.inl e⟩,fun e => hc ⟨hty',.inr (.inl e)⟩⟩
      rw [store16_out (by omega),markTos_out h15]
    · rw [store16_out (by decide),markTos_tos]

theorem fixCksum (e : Endian) (m : Mbuf) : Kept m.data (fixCksum e m).data :=
  of_intact fun _ hc => fixCksum_out e m hc

/-- With a whole IP header the addresses and the lengths are kept too. -/
theorem l3 (h : Kept d f) (h5 : 5 ≤ Umanet.ihl d) (hi : 16 ≤ i) (hlt : i < 40)
    (hne : i≠24 ∧ i≠25) : f i=d i := by
  apply h.bytes i (by omega) (by omega)
  intro hc
  obtain ⟨-,he | he | ⟨-,he⟩⟩ := hc
  · exact hne.1 he
  · exact hne.2 he
  · unfold l4CksumAt Umanet.l4Offset at he
    split at he <;> omega

theorem ipDstAddr (h : Kept d f) (h5 : 5 ≤ Umanet.ihl d) : ipDstAddr f=ipDstAddr d := by
  have hbyte {j : Nat} (hj : 30 ≤ j ∧ j < 34) : f j=d j :=
    h.l3 h5 (by omega) (by omega) (by omega)
  rw [Umanet.ipDstAddr,Umanet.ipDstAddr,be32,be32,hbyte (by decide),hbyte (by decide),
    hbyte (by decide),hbyte (by decide)]

/-- Of a frame that is not IPv4 everything behind the addresses is kept. -/
theorem payload (h : Kept d f) (hty : Umanet.etherType d≠etherTypeIpv4) (hi : 12 ≤ i) :
    f i=d i := by
  by_cases h15 : i=15
  · subst h15
    rcases h.tos with ht | ⟨hip,-⟩
    · exact ht
    · exact absurd hip hty
  · exact h.bytes i hi h15 (fun hc => hty hc.1)

/-- eth_rx_loop decides about the received frame as it would about the one that was sent. -/
theorem ethExitOf {μ : Type} (h : Kept d f)
    (h5 : Umanet.etherType d=etherTypeIpv4 → 5 ≤ Umanet.ihl d)
    (base : Ip) (m : μ) (r : Route) :
    ethExitOf base (⟨m,f,r⟩ : Polled μ)=ethExitOf base (⟨m,d,r⟩ : Polled μ) := by
  have hgate : gatewayArp base f=gatewayArp base d ∧
      ethDstIsLocalSubnet base f=ethDstIsLocalSubnet base d := by
    by_cases hty : Umanet.etherType d=etherTypeIpv4
    · have hne : Umanet.etherType d≠etherTypeArp := by
        rw [hty]
        decide
      constructor
      · simp only [gatewayArp,h.etherType,hne,decide_false,Bool.false_and]
      · rw [ethDstIsLocalSubnet,ethDstIsLocalSubnet,h.etherType,if_pos hty,if_pos hty,
          h.ipDstAddr (h5 hty)]
    · have hop : arpOpcode f=arpOpcode d := by
        rw [arpOpcode,arpOpcode,be16,be16,h.payload hty (by decide),h.payload hty (by decide)]
      have htip : arpTip f=arpTip d := by
        rw [arpTip,arpTip,be32,be32,h.payload hty (by decide),h.payload hty (by decide),
          h.payload hty (by decide),h.payload hty (by decide)]
      constructor
      · rw [gatewayArp,gatewayArp,h.etherType,hop,htip]
      · rw [ethDstIsLocalSubnet,ethDstIsLocalSubnet,h.etherType,htip,if_neg hty,if_neg hty]
  simp only [Umanet.ethExitOf,hgate.1,hgate.2]

end Kept

end

end Umanet
