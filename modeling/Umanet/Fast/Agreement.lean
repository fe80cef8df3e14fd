import Umanet.Fast.EthRx

namespace Umanet

/-- What both ingress loops decide about a frame: the slow path, the ring of a VM, a local
address without a VM, or an address outside the subnet. -/
inductive Verdict
  | slow
  | vm (v : Vid)
  | unknown
  | remote
  deriving DecidableEq

/-- The two return values of dst_is_local_subnet: in eth_rx.c the address, which becomes
negative from 128.0.0.0 on, in vhost_rx.c a comparison. -/
def ethLocalInt (base : Ip) (d : Data) : Int := (ethDstIsLocalSubnet base d).toInt
def vhostLocalInt (base : Ip) (d : Data) : Int := if dstIsLocalSubnet base d then 1 else 0

/-- The lookup of a destination and the test of its result. -/
def lookupVerdict (r : Route) (ip : Ip) : Verdict :=
  match vidOf (findVidByIp r ip) with
  | some v => .vm v
  | none => .unknown

/-- The tests of eth_rx_loop. The int it has in hand goes to find_vid_by_ip as a uint32. -/
def ethVerdict (base : Ip) (r : Route) (d : Data) : Verdict :=
  if gatewayArp base d then .slow
  else if ethLocalInt base d≠0 then lookupVerdict r (BitVec.ofInt 32 (ethLocalInt base d))
  else .remote

/-- The tests of vhost_rx_loop, which has the address from an out-parameter. -/
def vhostVerdict (base : Ip) (r : Route) (d : Data) : Verdict :=
  if gatewayArp base d then .slow
  else if vhostLocalInt base d≠0 then lookupVerdict r (flowKey d).dstIp
  else .remote

section
variable {base : Ip} {r : Route} {d : Data} {μ : Type}

/-- Where vhost_rx_loop puts a frame after its verdict. -/
def Verdict.vhostExit (queue : Nat) : Verdict → Exit
  | .slow => .slow
  | .vm v => .vm v
  | .unknown => .drop
  | .remote => .eth queue

/-- Where eth_rx_loop does. -/
def Verdict.ethExit : Verdict → Exit
  | .slow => .slow
  | .vm v => .vm v
  | .unknown => .drop
  | .remote => .drop

theorem vhostLocalInt_ne_zero : vhostLocalInt base d≠0 ↔ dstIsLocalSubnet base d=true := by
  unfold vhostLocalInt
  split
  · next h => exact iff_of_true (by decide) h
  · next h => exact iff_of_false (fun hne => hne rfl) h

theorem ethLocalInt_ne_zero : ethLocalInt base d≠0 ↔ ethDstIsLocalSubnet base d≠0 := by
  unfold ethLocalInt
  apply not_congr
  rw [← BitVec.toInt_zero,BitVec.toInt_inj]
  exact Iff.rfl

theorem ofInt_ethLocalInt : BitVec.ofInt 32 (ethLocalInt base d)=ethDstIsLocalSubnet base d :=
  BitVec.ofInt_toInt

theorem exitOf_verdict (cfg : Config) (rss : Softrss) (p : Polled μ) :
    exitOf cfg rss p=(vhostVerdict cfg.ip p.route p.data).vhostExit
      (flowPickTx rss cfg.ethTxQueues (flowKey p.data)) := by
  unfold exitOf vhostVerdict
  split
  · rfl
  · by_cases h : dstIsLocalSubnet cfg.ip p.data=true
    · rw [if_pos h,if_pos (vhostLocalInt_ne_zero.mpr h),lookupVerdict]
      cases vidOf (findVidByIp p.route (flowKey p.data).dstIp) <;> rfl
    · rw [if_neg h,if_neg (mt vhostLocalInt_ne_zero.mp h)]
      rfl

theorem ethExitOf_verdict (base : Ip) (p : Polled μ) :
    ethExitOf base p=(ethVerdict base p.route p.data).ethExit := by
  unfold ethExitOf ethVerdict
  split
  · rfl
  · by_cases h : ethDstIsLocalSubnet base p.data≠0
    · rw [if_pos h,if_pos (ethLocalInt_ne_zero.mpr h),ofInt_ethLocalInt,lookupVerdict]
      cases vidOf (findVidByIp p.route (ethDstIsLocalSubnet base p.data)) <;> rfl
    · rw [if_neg h,if_neg (mt ethLocalInt_ne_zero.mp h)]
      rfl

theorem ne_zero_of_sameSubnet (hbase : base &&& subnetMask≠0) {a : Ip} (h : sameSubnet a base) :
    a≠0 := by
  rintro rfl
  apply hbase
  rw [← h]
  rfl

/-- The address of eth_rx.c is that of the out-parameter if it is local, else 0. -/
theorem ethDstIsLocalSubnet_eq :
    ethDstIsLocalSubnet base d=if dstIsLocalSubnet base d then (flowKey d).dstIp else 0 := by
  unfold ethDstIsLocalSubnet dstIsLocalSubnet
  by_cases hip : etherType d=etherTypeIpv4
  · have hdst : (flowKey d).dstIp=ipDstAddr d := by
      rw [flowKey,if_pos hip]
      split <;> rfl
    rw [if_pos hip,hdst]
    by_cases hs : sameSubnet (ipDstAddr d) base
    · rw [if_pos hs,if_pos (decide_eq_true hs)]
    · rw [if_neg hs,if_neg (by rw [decide_eq_true_iff]; exact hs)]
  · by_cases harp : etherType d=etherTypeArp
    · have hdst : (flowKey d).dstIp=arpTip d := by rw [flowKey,if_neg hip,if_pos harp]
      rw [if_neg hip,if_pos harp,hdst]
      by_cases hs : sameSubnet (arpTip d) base
      · rw [if_pos hs,if_pos (decide_eq_true hs)]
      · rw [if_neg hs,if_neg (by rw [decide_eq_true_iff]; exact hs)]
    · -- any other EtherType leaves the out-parameter at 0
      have hdst : (flowKey d).dstIp=0 := by rw [flowKey,if_neg hip,if_neg harp]
      rw [if_neg hip,if_neg harp,hdst]
      split <;> rfl

theorem local_iff (hbase : base &&& subnetMask≠0) :
    ethLocalInt base d≠0 ↔ vhostLocalInt base d≠0 := by
  rw [ethLocalInt_ne_zero,vhostLocalInt_ne_zero,ethDstIsLocalSubnet_eq]
  constructor
  · intro h
    by_contra hl
    exact h (if_neg hl)
  · intro hl
    rw [if_pos hl]
    exact ne_zero_of_sameSubnet hbase (of_decide_eq_true hl)

end

/-- For every frame, every route table and every address with a non-zero /24 prefix, the two
loops come to the same verdict, and act on it. -/
theorem ingress_paths_agree (cfg : Config) (rss : Softrss) (hbase : cfg.ip &&& subnetMask≠0)
    {μ : Type} (p : Polled μ) :
    (ethLocalInt cfg.ip p.data≠0 ↔ vhostLocalInt cfg.ip p.data≠0) ∧
    ∃ x : Verdict,ethVerdict cfg.ip p.route p.data=x ∧ vhostVerdict cfg.ip p.route p.data=x ∧
      ethExitOf cfg.ip p=x.ethExit ∧
      exitOf cfg rss p=x.vhostExit (flowPickTx rss cfg.ethTxQueues (flowKey p.data)) := by
  have hlocal := local_iff (d:=p.data) hbase
  have hsame : ethVerdict cfg.ip p.route p.data=vhostVerdict cfg.ip p.route p.data := by
    unfold ethVerdict vhostVerdict
    by_cases hl : vhostLocalInt cfg.ip p.data≠0
    · have haddr : BitVec.ofInt 32 (ethLocalInt cfg.ip p.data)=(flowKey p.data).dstIp := by
        rw [ofInt_ethLocalInt,ethDstIsLocalSubnet_eq,if_pos (vhostLocalInt_ne_zero.mp hl)]
      rw [if_pos hl,if_pos (hlocal.mpr hl),haddr]
    · rw [if_neg hl,if_neg (mt hlocal.mp hl)]
  refine ⟨hlocal,_,hsame,rfl,?_,exitOf_verdict cfg rss p⟩
  rw [← hsame]
  exact ethExitOf_verdict cfg.ip p

/-- A frame for 192.168.100.5, whose address is negative as an int, with VM 2 at octet 5. -/
theorem ingress_paths_agree_negative :
    let p : Polled Nat := ⟨0,ipv4Frame 9 5,fun o => if o=5 then 2 else -1⟩
    ethLocalInt smallConfig.ip p.data < 0 ∧ ethVerdict smallConfig.ip p.route p.data=.vm 2 ∧
      vhostVerdict smallConfig.ip p.route p.data=.vm 2 := by
  intro p
  obtain ⟨-,x,heth,hvhost,-,-⟩ := ingress_paths_agree smallConfig (fun _ _ => 0) (by decide) p
  have hvm : ethVerdict smallConfig.ip p.route p.data=.vm 2 := by decide +kernel
  refine ⟨by decide +kernel,hvm,?_⟩
  rw [hvhost,← heth]
  exact hvm

end Umanet
