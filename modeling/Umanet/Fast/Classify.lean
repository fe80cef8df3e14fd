import Umanet.Vhost.Route

namespace Umanet

/-- An ARP request for the dataplane's own address; both ingress loops hand these
to the slow path. -/
def gatewayArp (base : Ip) (d : Data) : Bool :=
  decide (etherType d=etherTypeArp) && decide (arpOpcode d=arpOpRequest) &&
    decide (arpTip d=base)

/-- dst_is_local_subnet of eth_rx.c: the local destination, else 0. -/
def ethDstIsLocalSubnet (base : Ip) (d : Data) : Ip :=
  if etherType d=etherTypeIpv4 then
    if sameSubnet (ipDstAddr d) base then ipDstAddr d else 0
  else if etherType d=etherTypeArp then
    if sameSubnet (arpTip d) base then arpTip d else 0
  else 0

/-- The vid eth_rx_loop reads from the route table for a frame, if it gets there. -/
def ethLookup (base : Ip) (r : Route) (d : Data) : Option Int :=
  if gatewayArp base d then none
  else if ethDstIsLocalSubnet base d≠0 then some (findVidByIp r (ethDstIsLocalSubnet base d))
  else none

/-- Out-parameters of dst_is_local_subnet of vhost_rx.c; all start as 0. -/
structure FlowKey where
  srcIp : Ip
  dstIp : Ip
  srcPort : BitVec 16
  dstPort : BitVec 16
  proto : Byte
  deriving DecidableEq

def ipprotoTcp : Byte := 6
def ipprotoUdp : Byte := 17

def l4Offset (d : Data) : Nat := 14+ihl d*4

def flowKey (d : Data) : FlowKey :=
  if etherType d=etherTypeIpv4 then
    if nextProtoId d=ipprotoTcp ∨ nextProtoId d=ipprotoUdp then
      ⟨ipSrcAddr d,ipDstAddr d,be16 d (l4Offset d),be16 d (l4Offset d+2),nextProtoId d⟩
    else ⟨ipSrcAddr d,ipDstAddr d,0,0,nextProtoId d⟩
  else if etherType d=etherTypeArp then ⟨arpSip d,arpTip d,0,0,0⟩
  else ⟨0,0,0,0,0⟩

/-- dst_is_local_subnet of vhost_rx.c. -/
def dstIsLocalSubnet (base : Ip) (d : Data) : Bool := decide (sameSubnet (flowKey d).dstIp base)

end Umanet
