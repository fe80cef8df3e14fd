import Umanet.Vhost.State

namespace Umanet

/-- The bytes from `rte_pktmbuf_mtod` on. The buffer goes on behind the frame, so
a header read past the frame's end still returns a byte. -/
abbrev Data := Nat → Byte

def be16 (d : Data) (o : Nat) : BitVec 16 := d o++d (o+1)
def be32 (d : Data) (o : Nat) : BitVec 32 := d o++d (o+1)++d (o+2)++d (o+3)
def macAt (d : Data) (o : Nat) : Mac := fun i => d (o+i.val)

/-- rte_ether_hdr: dst_addr, src_addr, ether_type. -/
def dstMac (d : Data) : Mac := macAt d 0
def srcMac (d : Data) : Mac := macAt d 6
def etherType (d : Data) : BitVec 16 := be16 d 12

def etherTypeIpv4 : BitVec 16 := 0x0800
def etherTypeArp : BitVec 16 := 0x0806

/-- rte_ipv4_hdr, right behind the Ethernet header. -/
def ihl (d : Data) : Nat := (d 14 &&& 0x0f).toNat
def nextProtoId (d : Data) : Byte := d 23
def ipSrcAddr (d : Data) : Ip := be32 d 26
def ipDstAddr (d : Data) : Ip := be32 d 30

/-- rte_arp_hdr, right behind the Ethernet header. -/
def arpOpcode (d : Data) : BitVec 16 := be16 d 20
def arpSha (d : Data) : Mac := macAt d 22
def arpSip (d : Data) : Ip := be32 d 28
def arpTha (d : Data) : Mac := macAt d 32
def arpTip (d : Data) : Ip := be32 d 38

def arpOpRequest : BitVec 16 := 1
def arpOpReply : BitVec 16 := 2

/-- `ip & 0xFF` as the uint8 that indexes the route table. -/
def octet (ip : Ip) : Byte := ip.setWidth 8

def subnetMask : Ip := 0xFFFFFF00

/-- `(a & 0xFFFFFF00) == (b & 0xFFFFFF00)` -/
def sameSubnet (a b : Ip) : Prop := a &&& subnetMask=b &&& subnetMask

instance (a b : Ip) : Decidable (sameSubnet a b) := inferInstanceAs (Decidable (_=_))

private theorem subnetMask_bits : ∀ i : Fin 32,subnetMask.getLsbD i=decide (8 ≤ i.val) := by
  decide

theorem subnetMask_bit (i : Nat) (hi : i < 32) : subnetMask[i]=decide (8 ≤ i) := by
  rw [← BitVec.getLsbD_eq_getElem hi]
  exact subnetMask_bits ⟨i,hi⟩

theorem subnet_or_octet (a : Ip) : (a &&& subnetMask) ||| (octet a).setWidth 32=a := by
  ext i hi
  rw [BitVec.getElem_or,BitVec.getElem_and,subnetMask_bit i hi,BitVec.getElem_setWidth]
  by_cases h : i < 8
  · simp [octet,h,BitVec.getLsbD_eq_getElem hi]
  · have hl : 8 ≤ i := by omega
    simp [octet,hl]

theorem eq_of_subnet_octet {a b : Ip} (hs : sameSubnet a b) (ho : octet a=octet b) : a=b := by
  rw [← subnet_or_octet a,← subnet_or_octet b,hs,ho]

/-- The address of the /24 of `base` with last octet `o`. -/
def inSubnet (base : Ip) (o : Byte) : Ip := (base &&& subnetMask) ||| o.setWidth 32

theorem inSubnet_octet (base : Ip) (o : Byte) : octet (inSubnet base o)=o := by
  ext i hi
  have h32 : i < 32 := by omega
  have hb : ¬8 ≤ i := by omega
  rw [octet,BitVec.getElem_setWidth,BitVec.getLsbD_eq_getElem h32,inSubnet,BitVec.getElem_or,
    BitVec.getElem_and,subnetMask_bit i h32]
  simp [hb,BitVec.getLsbD_eq_getElem hi]

theorem inSubnet_same (base : Ip) (o : Byte) : sameSubnet (inSubnet base o) base := by
  unfold sameSubnet inSubnet
  ext i hi
  simp only [BitVec.getElem_and,BitVec.getElem_or,BitVec.getElem_setWidth,subnetMask_bit i hi]
  by_cases h : 8 ≤ i
  · simp [h]
  · simp [h]

def store (d : Data) (o n : Nat) (f : Nat → Byte) : Data :=
  fun i => if o ≤ i ∧ i < o+n then f (i-o) else d i

def putMac (d : Data) (o : Nat) (m : Mac) : Data :=
  store d o 6 fun k => if h : k < 6 then m ⟨k,h⟩ else 0

def putBe16 (d : Data) (o : Nat) (x : BitVec 16) : Data :=
  store d o 2 fun k => x.extractLsb' (8*(1-k)) 8

def putBe32 (d : Data) (o : Nat) (x : BitVec 32) : Data :=
  store d o 4 fun k => x.extractLsb' (8*(3-k)) 8

theorem store_in (d : Data) (o n : Nat) (f : Nat → Byte) {k : Nat} (h : k < n) :
    store d o n f (o+k)=f k := by
  rw [store,if_pos (by omega),Nat.add_sub_cancel_left]

theorem store_out (d : Data) (o n : Nat) (f : Nat → Byte) {i : Nat} (h : i < o ∨ o+n ≤ i) :
    store d o n f i=d i := if_neg (by omega)

theorem macAt_putMac (d : Data) (o : Nat) (m : Mac) : macAt (putMac d o m) o=m := by
  funext i
  rw [macAt,putMac,store_in d o 6 _ i.isLt,dif_pos i.isLt]

theorem be16_putBe16 (d : Data) (o : Nat) (x : BitVec 16) : be16 (putBe16 d o x) o=x := by
  have h0 := store_in d o 2 (fun k => x.extractLsb' (8*(1-k)) 8) (k:=0) (by decide)
  have h1 := store_in d o 2 (fun k => x.extractLsb' (8*(1-k)) 8) (k:=1) (by decide)
  rw [be16,putBe16]
  rw [Nat.add_zero] at h0
  rw [h0,h1]
  ext i hi
  simp only [BitVec.getElem_append,BitVec.getElem_extractLsb']
  split
  · simp [BitVec.getLsbD_eq_getElem hi]
  · have : 8+(i-8)=i := by omega
    simp [this,BitVec.getLsbD_eq_getElem hi]

theorem be32_putBe32 (d : Data) (o : Nat) (x : BitVec 32) : be32 (putBe32 d o x) o=x := by
  have hs := fun k (hk : k < 4) => store_in d o 4 (fun k => x.extractLsb' (8*(3-k)) 8) hk
  have h0 := hs 0 (by decide)
  rw [Nat.add_zero] at h0
  rw [be32,putBe32,h0,hs 1 (by decide),hs 2 (by decide),hs 3 (by decide)]
  ext i hi
  simp only [BitVec.getElem_append,BitVec.getElem_extractLsb']
  split
  · simp [BitVec.getLsbD_eq_getElem hi]
  · split
    · have : 8+(i-8)=i := by omega
      simp [this,BitVec.getLsbD_eq_getElem hi]
    · split
      · have : 16+(i-8-8)=i := by omega
        simp [this,BitVec.getLsbD_eq_getElem hi]
      · have : 24+(i-8-8-8)=i := by omega
        simp [this,BitVec.getLsbD_eq_getElem hi]

theorem macAt_store {d : Data} {o n p : Nat} {f : Nat → Byte} (h : p+6 ≤ o ∨ o+n ≤ p) :
    macAt (store d o n f) p=macAt d p := by
  funext i
  exact store_out d o n f (by omega)

theorem be16_store {d : Data} {o n p : Nat} {f : Nat → Byte} (h : p+2 ≤ o ∨ o+n ≤ p) :
    be16 (store d o n f) p=be16 d p := by
  rw [be16,be16,store_out d o n f (by omega),store_out d o n f (by omega)]

theorem be32_store {d : Data} {o n p : Nat} {f : Nat → Byte} (h : p+4 ≤ o ∨ o+n ≤ p) :
    be32 (store d o n f) p=be32 d p := by
  rw [be32,be32,store_out d o n f (by omega),store_out d o n f (by omega),
    store_out d o n f (by omega),store_out d o n f (by omega)]

/-- An IPv4 frame from 192.168.100.x to 192.168.100.y, for concrete runs; its other
bytes are zero. -/
def ipv4Frame (x y : Byte) : Data := fun o =>
  if o=12 then 8 else if o=26 ∨ o=30 then 192 else if o=27 ∨ o=31 then 168
  else if o=28 ∨ o=32 then 100 else if o=29 then x else if o=33 then y else 0

end Umanet
