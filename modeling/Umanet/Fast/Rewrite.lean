import Umanet.Vhost.Route

namespace Umanet

/-- ecn_mark_packet; `cksum` is rte_ipv4_cksum on the header with a zero checksum field. -/
def ecnMarkPacket (cksum : Data → BitVec 16) (d : Data) : Data :=
  if etherType d≠etherTypeIpv4 then d
  else if d 15 &&& 0x03≠0 then
    let d := store d 15 1 fun _ => d 15 ||| 0x03
    let d := putBe16 d 24 0
    putBe16 d 24 (cksum d)
  else d

theorem ecnMarkPacket_keeps (cksum : Data → BitVec 16) (d : Data) :
    srcMac (ecnMarkPacket cksum d)=srcMac d ∧ learnedIp (ecnMarkPacket cksum d)=learnedIp d := by
  unfold ecnMarkPacket
  split
  · exact ⟨rfl,rfl⟩
  · split
    · rename_i htype hect
      have htype' : etherType d=etherTypeIpv4 := not_not.mp htype
      dsimp only
      generalize cksum _=x
      have hmac (d : Data) (y : BitVec 16) : macAt (putBe16 d 24 y) 6=macAt d 6 :=
        macAt_store (by decide)
      have hty (d : Data) (y : BitVec 16) : be16 (putBe16 d 24 y) 12=be16 d 12 :=
        be16_store (by decide)
      have hip (d : Data) (y : BitVec 16) : be32 (putBe16 d 24 y) 26=be32 d 26 :=
        be32_store (by decide)
      let e := store d 15 1 fun _ => d 15 ||| 0x03
      have hmac' : macAt e 6=macAt d 6 := macAt_store (by decide)
      have hty' : be16 e 12=be16 d 12 := be16_store (by decide)
      have hip' : be32 e 26=be32 d 26 := be32_store (by decide)
      change srcMac (putBe16 (putBe16 e 24 0) 24 x)=srcMac d ∧
        learnedIp (putBe16 (putBe16 e 24 0) 24 x)=learnedIp d
      have htypes : etherType (putBe16 (putBe16 e 24 0) 24 x)=etherTypeIpv4 := by
        rw [etherType,hty,hty,hty']
        exact htype'
      constructor
      · rw [srcMac,hmac,hmac,hmac']
        rfl
      · rw [learnedIp,if_pos htypes,learnedIp,if_pos htype',ipSrcAddr,hip,hip,hip']
        rfl
    · exact ⟨rfl,rfl⟩

def isMulticast (mac : Mac) : Bool := mac 0 &&& 1=1

/-- What eth_tx_loop stores in a frame before it is sent: the NIC's address as source,
and the other node's as destination where that was the dataplane's own. -/
def ethTxHeader (ethAddr mac otherNodeMac : Mac) (d : Data) : Data :=
  let d := putMac d 6 ethAddr
  if isMulticast (dstMac d) then d
  else if ∀ i,dstMac d i=mac i then putMac d 0 otherNodeMac
  else d

end Umanet
