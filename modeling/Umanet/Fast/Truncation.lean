import Umanet.Fast.VhostRx

namespace Umanet

def Agree (n : Nat) (d e : Data) : Prop := ∀ i < n,d i=e i

namespace Agree

variable {n o : Nat} {d e : Data}

theorem be16 (h : Agree n d e) (ho : o+2 ≤ n) : be16 d o=be16 e o := by
  rw [Umanet.be16,Umanet.be16,h o (by omega),h (o+1) (by omega)]

theorem be32 (h : Agree n d e) (ho : o+4 ≤ n) : be32 d o=be32 e o := by
  rw [Umanet.be32,Umanet.be32,h o (by omega),h (o+1) (by omega),h (o+2) (by omega),
    h (o+3) (by omega)]

theorem macAt (h : Agree n d e) (ho : o+6 ≤ n) : macAt d o=macAt e o :=
  funext fun i => h (o+i.val) (by omega)

theorem update {i : Nat} (d : Data) (hi : n ≤ i) (x : Byte) : Agree n d (Function.update d i x) :=
  fun _ hj => (Function.update_of_ne (by omega) ..).symm

end Agree

theorem be16_high (d : Data) (o : Nat) : (be16 d o).extractLsb' 8 8=d o := by
  ext i hi
  have h : ¬8+i < 8 := by omega
  rw [BitVec.getElem_extractLsb',be16,BitVec.getLsbD_append,if_neg h,Nat.add_sub_cancel_left,
    BitVec.getLsbD_eq_getElem hi]

theorem octet_be32 (d : Data) (o : Nat) : octet (be32 d o)=d (o+3) := by
  ext i hi
  rw [octet,BitVec.getElem_setWidth,be32,BitVec.getLsbD_append,if_pos hi,
    BitVec.getLsbD_eq_getElem hi]

theorem sameSubnet_be32 {d e : Data} {o : Nat} (h : Agree (o+3) d e) :
    sameSubnet (be32 d o) (be32 e o) := by
  unfold sameSubnet
  ext i hi
  rw [BitVec.getElem_and,BitVec.getElem_and,subnetMask_bit i hi]
  by_cases hl : 8 ≤ i
  · have hl' : ¬i < 8 := by omega
    rw [be32,be32,BitVec.getElem_append,BitVec.getElem_append,dif_neg hl',dif_neg hl',
      h o (by omega),h (o+1) (by omega),h (o+2) (by omega)]
  · simp [hl]

theorem not_sameSubnet_not (a : Ip) : ¬sameSubnet a (~~~a) := by
  intro h
  have hbit := congrArg (fun x : Ip => x[8]) h
  simp [BitVec.getElem_and,subnetMask_bit] at hbit

/-- What vhost_rx_loop and link_vmdq take from a buffer. -/
structure SameReads (d e : Data) : Prop where
  srcMac : srcMac d=srcMac e
  learnedIp : learnedIp d=learnedIp e
  flowKey : flowKey d=flowKey e
  gatewayArp : ∀ base,gatewayArp base d=gatewayArp base e

/-- The n bytes of a frame hold every header field the code goes on to read. A frame of 13
bytes is enough when its first EtherType byte excludes IPv4 and ARP. -/
structure Complete (f : Data) (n : Nat) : Prop where
  mac : 12 < n
  ethertype : n=13 → f 12≠8
  ipv4 : 14 ≤ n → etherType f=etherTypeIpv4 → 34 ≤ n ∧
    (nextProtoId f=ipprotoTcp ∨ nextProtoId f=ipprotoUdp → l4Offset f+4 ≤ n)
  arp : 14 ≤ n → etherType f=etherTypeArp → 42 ≤ n

section
variable {n : Nat} {d e : Data}

/-- Without one of the two EtherTypes nothing behind the Ethernet header is read. -/
theorem sameReads_other (hm : srcMac d=srcMac e) (hd4 : etherType d≠etherTypeIpv4)
    (hda : etherType d≠etherTypeArp) (he4 : etherType e≠etherTypeIpv4)
    (hea : etherType e≠etherTypeArp) : SameReads d e where
  srcMac := hm
  learnedIp := by simp [learnedIp,hd4,hda,he4,hea]
  flowKey := by simp [flowKey,hd4,hda,he4,hea]
  gatewayArp base := by simp [gatewayArp,hda,hea]

theorem etherType_of_high (h : d 12≠8) : etherType d≠etherTypeIpv4 ∧ etherType d≠etherTypeArp := by
  have hhigh := be16_high d 12
  constructor
  · intro he
    rw [etherType] at he
    rw [he] at hhigh
    exact h (hhigh.symm.trans (by decide))
  · intro he
    rw [etherType] at he
    rw [he] at hhigh
    exact h (hhigh.symm.trans (by decide))

theorem sameReads_ipv4 (h : Agree n d e) (hty : etherType d=etherTypeIpv4) (h34 : 34 ≤ n)
    (hport : nextProtoId d=ipprotoTcp ∨ nextProtoId d=ipprotoUdp → l4Offset d+4 ≤ n) :
    SameReads d e := by
  have hty' : etherType e=etherTypeIpv4 := by rw [← hty,etherType,etherType,h.be16 (by omega)]
  have hna : etherTypeIpv4≠etherTypeArp := by decide
  have hproto : nextProtoId d=nextProtoId e := h 23 (by omega)
  have hl4 : l4Offset d=l4Offset e := by rw [l4Offset,l4Offset,ihl,ihl,h 14 (by omega)]
  have hsrc : ipSrcAddr d=ipSrcAddr e := h.be32 (by omega)
  have hdst : ipDstAddr d=ipDstAddr e := h.be32 (by omega)
  refine ⟨h.macAt (by omega),?_,?_,fun base => ?_⟩
  · rw [learnedIp,learnedIp,if_pos hty,if_pos hty',hsrc]
  · rw [flowKey,flowKey,if_pos hty,if_pos hty',← hproto,← hl4,hsrc,hdst]
    split
    · next hp =>
      have hn := hport hp
      rw [h.be16 (by omega),h.be16 (by omega)]
    · rfl
  · simp [gatewayArp,hty,hty',hna]

theorem sameReads_arp (h : Agree n d e) (hty : etherType d=etherTypeArp) (h42 : 42 ≤ n) :
    SameReads d e := by
  have hty' : etherType e=etherTypeArp := by rw [← hty,etherType,etherType,h.be16 (by omega)]
  have hn4 : etherTypeArp≠etherTypeIpv4 := by decide
  have hop : arpOpcode d=arpOpcode e := h.be16 (by omega)
  have hsip : arpSip d=arpSip e := h.be32 (by omega)
  have htip : arpTip d=arpTip e := h.be32 (by omega)
  refine ⟨h.macAt (by omega),?_,?_,fun base => ?_⟩
  · simp [learnedIp,hty,hty',hn4,hsip]
  · simp [flowKey,hty,hty',hn4,hsip,htip]
  · rw [gatewayArp,gatewayArp,hty,hty',hop,htip]

theorem Complete.sameReads (hc : Complete d n) (h : Agree n d e) : SameReads d e := by
  have h12 := hc.mac
  have hm : srcMac d=srcMac e := h.macAt (by omega)
  by_cases h14 : 14 ≤ n
  · have hty : etherType d=etherType e := h.be16 (by omega)
    by_cases h4 : etherType d=etherTypeIpv4
    · obtain ⟨h34,hport⟩ := hc.ipv4 h14 h4
      exact sameReads_ipv4 h h4 h34 hport
    · by_cases ha : etherType d=etherTypeArp
      · exact sameReads_arp h ha (hc.arp h14 ha)
      · exact sameReads_other hm h4 ha (hty ▸ h4) (hty ▸ ha)
  · have hhigh := hc.ethertype (by omega)
    have hd := etherType_of_high hhigh
    have he := etherType_of_high (h 12 h12 ▸ hhigh)
    exact sameReads_other hm hd.1 hd.2 he.1 he.2

end

/-- In every environment all buffers that hold the n bytes of f take the same exit, and
link_vmdq does the same to every device and route table. -/
def FrameDecides {μ : Type} (rss : Softrss) (m : μ) (f : Data) (n : Nat) : Prop :=
  ∀ d e,Agree n f d → Agree n f e →
    (∀ cfg route,exitOf cfg rss ⟨m,d,route⟩=exitOf cfg rss ⟨m,e,route⟩) ∧
      ∀ dev r,linkVmdq dev r d=linkVmdq dev r e

section
variable {μ : Type} {rss : Softrss} {m : μ} {f d e : Data} {n : Nat}

theorem SameReads.exitOf (h : SameReads d e) (cfg : Config) (route : Route) :
    exitOf cfg rss ⟨m,d,route⟩=exitOf cfg rss ⟨m,e,route⟩ := by
  unfold Umanet.exitOf dstIsLocalSubnet
  dsimp only
  rw [h.gatewayArp,h.flowKey]

theorem SameReads.linkVmdq (h : SameReads d e) (dev : VhostDev) (r : Route) :
    linkVmdq dev r d=linkVmdq dev r e := by
  have hlearn : ((dev.learnMac d).learnIp d).learnVmId d=
      ((dev.learnMac e).learnIp e).learnVmId e := by
    simp only [VhostDev.learnMac,VhostDev.learnIp,VhostDev.learnVmId,h.srcMac,h.learnedIp]
  simp only [Umanet.linkVmdq,hlearn]

theorem learned_eq_of_linkVmdq (h : ∀ dev r,linkVmdq dev r d=linkVmdq dev r e) :
    srcMac d=srcMac e ∧ learnedIp d=learnedIp e := by
  have hdev (ip : Ip) :=
    congrArg Prod.fst (h {VhostDev.fresh 0 with ip:=ip} initRouteTable)
  have hip (ip : Ip) : (learnedIp d).getD ip=(learnedIp e).getD ip := by
    have hi := congrArg VhostDev.ip (hdev ip)
    rwa [(linkVmdq_dev _ _ d).2.1,(linkVmdq_dev _ _ e).2.1] at hi
  have hne (a : Ip) : a≠~~~a := fun h => not_sameSubnet_not a (congrArg (· &&& subnetMask) h)
  refine ⟨?_,?_⟩
  · have hm := congrArg VhostDev.mac (hdev 0)
    rwa [linkVmdq_mac,linkVmdq_mac] at hm
  · cases hd : learnedIp d with
    | none =>
      cases he : learnedIp e with
      | none => rfl
      | some b =>
        have hb := hip (~~~b)
        rw [hd,he] at hb
        exact absurd hb.symm (hne b)
    | some a =>
      have ha := hip (~~~a)
      cases he : learnedIp e with
      | none =>
        rw [hd,he] at ha
        exact absurd ha (hne a)
      | some b =>
        rw [hd,he] at ha
        exact congrArg some ha

theorem FrameDecides.congr (h : FrameDecides rss m f n) (hg : Agree n f d) :
    FrameDecides rss m d n :=
  fun a b ha hb => h a b (fun i hi => (hg i hi).trans (ha i hi)) fun i hi => (hg i hi).trans (hb i hi)

theorem FrameDecides.learn (h : FrameDecides rss m f n) {i : Nat} (hi : n ≤ i) (x y : Byte) :
    srcMac (Function.update f i x)=srcMac (Function.update f i y) ∧
      learnedIp (Function.update f i x)=learnedIp (Function.update f i y) :=
  learned_eq_of_linkVmdq (h _ _ (.update f hi x) (.update f hi y)).2

theorem FrameDecides.exit (h : FrameDecides rss m f n) {i : Nat} (hi : n ≤ i) (x y : Byte)
    (cfg : Config) (route : Route) : exitOf cfg rss ⟨m,Function.update f i x,route⟩=
      exitOf cfg rss ⟨m,Function.update f i y,route⟩ :=
  (h _ _ (.update f hi x) (.update f hi y)).1 cfg route

theorem FrameDecides.macIn (h : FrameDecides rss m f n) : 12 ≤ n := by
  by_contra hn
  have hmac := congrFun (h.learn (i:=11) (by omega) 0 1).1 5
  simp [srcMac,macAt] at hmac

theorem etherType_update {i : Nat} (hi : 14 ≤ i) (x : Byte) :
    etherType (Function.update f i x)=etherType f :=
  ((Agree.update f hi x).be16 (by omega)).symm

/-- With 8 as its first byte the second EtherType byte has to be in the frame. -/
theorem FrameDecides.etherTypeIn (h : FrameDecides rss m f n) (h8 : f 12=8) : 14 ≤ n := by
  by_contra hn
  have hlearn := (h.learn (i:=13) (by omega) 0 1).2
  have h0 : etherType (Function.update f 13 0)=etherTypeIpv4 := by
    simp [etherType,be16,h8]
    decide
  have h1 : etherType (Function.update f 13 1)=0x0801 := by
    simp [etherType,be16,h8]
  rw [learnedIp,learnedIp,h0,h1] at hlearn
  simp [etherTypeIpv4,etherTypeArp] at hlearn

theorem FrameDecides.pastMac (h : FrameDecides rss m f n) : 12 < n ∧ (n=13 → f 12≠8) := by
  have h12 := h.macIn
  refine ⟨?_,fun hn h8 => ?_⟩
  · by_contra hn
    have h14 := (h.congr (.update f (i:=12) (by omega) 8)).etherTypeIn (Function.update_self ..)
    omega
  · have h14 := h.etherTypeIn h8
    omega

theorem octet_update (o : Nat) (x : Byte) : octet (be32 (Function.update f (o+3) x) o)=x := by
  rw [octet_be32,Function.update_self]

def zeroOnly : Route := fun o => if o=0 then 0 else -1

theorem exitOf_local {cfg : Config} {route : Route} (hg : gatewayArp cfg.ip d=false)
    (hs : sameSubnet (flowKey d).dstIp cfg.ip) : exitOf cfg rss ⟨m,d,route⟩=
      (vidOf (findVidByIp route (flowKey d).dstIp)).elim .drop .vm := by
  simp only [exitOf,hg,dstIsLocalSubnet,hs]
  cases vidOf (findVidByIp route (flowKey d).dstIp) <;> rfl

/-- A local destination address is in the frame: its last byte chooses the VM. -/
theorem FrameDecides.dstIn (h : FrameDecides rss m f n) {o : Nat}
    (hread : ∀ x,(flowKey (Function.update f (o+3) x)).dstIp=be32 (Function.update f (o+3) x) o)
    (hgate : ∀ x≠255,gatewayArp (inSubnet (be32 f o) 255) (Function.update f (o+3) x)=false) :
    o+4 ≤ n := by
  by_contra hn
  have hs : ∀ x,sameSubnet (flowKey (Function.update f (o+3) x)).dstIp
      (inSubnet (be32 f o) 255) := by
    intro x
    rw [hread x]
    exact (sameSubnet_be32 (Agree.update f le_rfl x)).symm.trans (inSubnet_same _ _).symm
  have hexit := h.exit (i:=o+3) (by omega) 0 1 {smallConfig with ip:=inSubnet (be32 f o) 255}
    zeroOnly
  rw [exitOf_local (hgate 0 (by decide)) (hs 0),exitOf_local (hgate 1 (by decide)) (hs 1),
    findVidByIp,findVidByIp,hread 0,hread 1,octet_update,octet_update] at hexit
  have h0 : vidOf (zeroOnly 0)=some 0 := by decide
  have h1 : vidOf (zeroOnly 1)=none := by decide
  rw [h0,h1] at hexit
  cases hexit

/-- rte_softrss_be depends on every part of the tuple; here: whatever the rest of the
tuple is, some other low byte of the destination port leads to another of some number of
queues. -/
def Softrss.SpreadsPorts (rss : Softrss) : Prop :=
  ∀ k : FlowKey,∃ (x : Byte) (queues : Nat),0 < queues ∧ queues ≤ maxEthTxQueues ∧
    flowPickTx rss queues {k with dstPort:=k.dstPort.extractLsb' 8 8++x}≠flowPickTx rss queues k

theorem flowKey_ports (hty : etherType d=etherTypeIpv4)
    (hp : nextProtoId d=ipprotoTcp ∨ nextProtoId d=ipprotoUdp) :
    flowKey d=⟨ipSrcAddr d,ipDstAddr d,be16 d (l4Offset d),be16 d (l4Offset d+2),nextProtoId d⟩ := by
  rw [flowKey,if_pos hty,if_pos hp]

/-- The last byte of the destination port, behind the IPv4 header. -/
theorem flowKey_update (hty : etherType f=etherTypeIpv4)
    (hp : nextProtoId f=ipprotoTcp ∨ nextProtoId f=ipprotoUdp) (h34 : 34 ≤ l4Offset f+3) (x : Byte) :
    flowKey (Function.update f (l4Offset f+3) x)=
      {flowKey f with dstPort:=(flowKey f).dstPort.extractLsb' 8 8++x} := by
  have hag := Agree.update f (le_refl (l4Offset f+3)) x
  have hproto : nextProtoId f=nextProtoId (Function.update f (l4Offset f+3) x) := hag 23 (by omega)
  have hl4 : l4Offset f=l4Offset (Function.update f (l4Offset f+3) x) := by
    conv_lhs => rw [l4Offset,ihl,hag 14 (by omega)]
    rfl
  have hty' := (etherType_update (f:=f) (i:=l4Offset f+3) (by omega) x).trans hty
  have hdst : be16 (Function.update f (l4Offset f+3) x) (l4Offset f+2)=f (l4Offset f+2)++x := by
    rw [be16,← hag (l4Offset f+2) (by omega),Function.update_self]
  have hsrc : ipSrcAddr f=ipSrcAddr (Function.update f (l4Offset f+3) x) := hag.be32 (by omega)
  have hdip : ipDstAddr f=ipDstAddr (Function.update f (l4Offset f+3) x) := hag.be32 (by omega)
  rw [flowKey_ports hty hp,flowKey_ports hty' (hproto ▸ hp),← hl4,← hproto,← hsrc,← hdip,hdst,
    ← hag.be16 (by omega),be16_high]

theorem FrameDecides.portsIn (hrss : rss.SpreadsPorts) (h : FrameDecides rss m f n)
    (hty : etherType f=etherTypeIpv4) (hp : nextProtoId f=ipprotoTcp ∨ nextProtoId f=ipprotoUdp)
    (h34 : 34 ≤ n) : l4Offset f+4 ≤ n := by
  by_contra hn
  obtain ⟨x,queues,hpos,hle,hpick⟩ := hrss (flowKey f)
  have hkey := flowKey_update hty hp (by omega) x
  have hty' := (etherType_update (f:=f) (i:=l4Offset f+3) (by omega) x).trans hty
  let cfg : Config := {smallConfig with
    ip := ~~~(flowKey f).dstIp
    ethTxQueues:=queues
    queues_pos:=hpos
    queues_le:=hle}
  have hfar : ¬sameSubnet (flowKey f).dstIp cfg.ip := not_sameSubnet_not _
  have hexit := (h _ _ (.update f (i:=l4Offset f+3) (by omega) x) (fun _ _ => rfl)).1 cfg zeroOnly
  have hna : etherTypeIpv4≠etherTypeArp := by decide
  simp only [exitOf,gatewayArp,hty,hty',hna,dstIsLocalSubnet,hkey,hfar] at hexit
  exact hpick (Exit.eth.inj hexit)

theorem FrameDecides.complete (hrss : rss.SpreadsPorts) (h : FrameDecides rss m f n) :
    Complete f n := by
  have hna : etherTypeIpv4≠etherTypeArp := by decide
  have hn4 : etherTypeArp≠etherTypeIpv4 := by decide
  refine ⟨h.pastMac.1,h.pastMac.2,fun _ hty => ?_,fun _ hty => ?_⟩
  · have hty' (i : Nat) (hi : 14 ≤ i) (x : Byte) :
        etherType (Function.update f i x)=etherTypeIpv4 := (etherType_update hi x).trans hty
    have h34 : 30+4 ≤ n := by
      refine h.dstIn (fun x => ?_) fun x _ => ?_
      · rw [flowKey,if_pos (hty' 33 (by omega) x)]
        split <;> rfl
      · simp [gatewayArp,hty' 33 (by omega) x,hna]
    exact ⟨h34,fun hp => h.portsIn hrss hty hp h34⟩
  · have hty' (i : Nat) (hi : 14 ≤ i) (x : Byte) :
        etherType (Function.update f i x)=etherTypeArp := (etherType_update hi x).trans hty
    refine h.dstIn (o:=38) (fun x => ?_) fun x hx => ?_
    · simp [flowKey,hty' 41 (by omega) x,hn4,arpTip]
    · have htip : arpTip (Function.update f (38+3) x)≠inSubnet (be32 f 38) 255 := by
        intro he
        have hoctet := congrArg octet he
        rw [arpTip,octet_update,inSubnet_octet] at hoctet
        exact hx hoctet
      rw [gatewayArp,decide_eq_false htip,Bool.and_false]

/-- A frame decides where it goes and what is learned from it iff it is complete. -/
theorem frame_decides_iff {μ : Type} (rss : Softrss) (hrss : rss.SpreadsPorts) (m : μ) (f : Data)
    (n : Nat) : FrameDecides rss m f n ↔ Complete f n := by
  constructor
  · exact FrameDecides.complete hrss
  · intro hc d e hd he
    have hsd := hc.sameReads hd
    have hse := hc.sameReads he
    refine ⟨fun cfg route => ?_,fun dev r => ?_⟩
    · rw [← hsd.exitOf cfg route,← hse.exitOf cfg route]
    · rw [← hsd.linkVmdq dev r,← hse.linkVmdq dev r]

/-- A hash that is the lowest bit of the destination port. -/
def portRss : Softrss := fun tuple _ => if (tuple.getD 2 0).getLsbD 8 then 1 else 0

theorem flowPickTx_portRss (k : FlowKey) :
    flowPickTx portRss 2 k=if k.dstPort.getLsbD 0 then 1 else 0 := by
  have hbit : (((bswap16 k.srcPort).setWidth 32 <<< 16 ||| (bswap16 k.dstPort).setWidth 32 :
      BitVec 32)).getLsbD 8=k.dstPort.getLsbD 0 := by
    have hswap : (bswap16 k.dstPort).getLsbD 8=k.dstPort.getLsbD 0 := by
      rw [bswap16,BitVec.getLsbD_append,if_neg (by decide),BitVec.getLsbD_extractLsb']
      rfl
    rw [BitVec.getLsbD_or,BitVec.getLsbD_shiftLeft,BitVec.getLsbD_setWidth,BitVec.getLsbD_setWidth,
      hswap]
    simp
  unfold flowPickTx portRss
  simp only [List.getD_cons_succ,List.getD_cons_zero,hbit]
  split <;> rfl

theorem portRss_spreadsPorts : portRss.SpreadsPorts := by
  intro k
  cases hbit : k.dstPort.getLsbD 0 with
  | true =>
    refine ⟨0,2,by decide,by decide,?_⟩
    rw [flowPickTx_portRss,flowPickTx_portRss,hbit,BitVec.getLsbD_append,
      if_pos (show 0 < 8 by decide)]
    decide
  | false =>
    refine ⟨1,2,by decide,by decide,?_⟩
    rw [flowPickTx_portRss,flowPickTx_portRss,hbit,BitVec.getLsbD_append,
      if_pos (show 0 < 8 by decide)]
    decide

/-- An IPv4 frame that ends behind its TOS byte decides nothing, one with all of its header
and no ports does. -/
theorem frame_decides_ipv4Frame : ¬FrameDecides portRss () (ipv4Frame 5 7) 16 ∧
    FrameDecides portRss () (ipv4Frame 5 7) 34 := by
  have hty : etherType (ipv4Frame 5 7)=etherTypeIpv4 := by decide
  constructor
  · intro h
    have hc := (frame_decides_iff portRss portRss_spreadsPorts () (ipv4Frame 5 7) 16).mp h
    exact absurd (hc.ipv4 (by decide) hty).1 (by decide)
  · refine (frame_decides_iff portRss portRss_spreadsPorts () (ipv4Frame 5 7) 34).mpr ⟨by decide,
      by decide,fun _ _ => ⟨le_rfl,by decide⟩,fun _ ha => ?_⟩
    rw [hty] at ha
    exact absurd ha (by decide)

/-- Two buffers with the same 20 bytes of frame: one goes to VM 3, the other is dropped, and
link_vmdq learns two addresses. -/
theorem stale_bytes_route : Agree 20 (ipv4Frame 5 7) (ipv4Frame 6 8) ∧
    (exitOf smallConfig portRss ⟨(),ipv4Frame 5 7,Function.update initRouteTable 7 3⟩=.vm 3 ∧
      exitOf smallConfig portRss ⟨(),ipv4Frame 6 8,Function.update initRouteTable 7 3⟩=.drop) ∧
    (linkVmdq (.fresh 0) initRouteTable (ipv4Frame 5 7)).1.ip=0xC0A86405 ∧
      (linkVmdq (.fresh 0) initRouteTable (ipv4Frame 6 8)).1.ip=0xC0A86406 := by
  refine ⟨?_,⟨by decide +kernel,by decide +kernel⟩,by decide +kernel,by decide +kernel⟩
  unfold Agree
  decide +kernel

end

end Umanet
