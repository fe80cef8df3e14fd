import Umanet.Fast.Leak
import Umanet.Fast.Dispatch

namespace Umanet

open Framework

variable {μ : Type}

/-- eth_rx_loop: burst after burst with the arrays that live across them. -/
def ethRxLoop (base : Ip) : Carry μ → List (EthBurst μ) → Option (Carry μ)
  | c,[] => some c
  | c,b::bs => (ethBurst base c b).bind fun o => ethRxLoop base ⟨o.vmPkts,o.ethPkts⟩ bs

/-- The burst runs through and every polled mbuf has an owner afterwards. -/
def EthNoLeak (base : Ip) (c : Carry μ) (b : EthBurst μ) : Prop :=
  ∃ o,ethBurst base c b=some o ∧ ∀ p∈b.pkts,Disposed o p.mbuf

def ethBefore (base : Ip) (b : EthBurst μ) (e : Exit) (j : Nat) : Nat :=
  (b.pkts.take j).countP fun p => decide (ethExitOf base p=e)

/-- Packet j finds room at its exit: a VM needs its device, for the MAC address, and room in
its ring, the slow path room in its own. No other exit has room: the loop never frees. -/
def EthFindsRoom (base : Ip) (b : EthBurst μ) (j : Nat) : Exit → Prop
  | .vm v => (b.device v).isSome=true ∧ ethBefore base b (.vm v) j < b.accVm v
  | .slow => ethBefore base b .slow j < b.accSlow
  | .drop | .eth _ => False

theorem flushVm_freed (acc : Vid → Nat) (vs : List Vid) (o : Out μ) :
    (flushVm acc vs o).freed=o.freed := by
  induction vs generalizing o with
  | nil => rfl
  | cons v vs ih =>
    rw [flushVm]
    split
    · rfl
    · rw [ih]

theorem ethBurst_freed {base : Ip} {c : Carry μ} {b : EthBurst μ} {o : Out μ}
    (h : ethBurst base c b=some o) : o.freed=[] := by
  obtain ⟨st,-,rfl⟩ := Option.map_eq_some_iff.mp h
  exact flushVm_freed b.accVm st.dstVids _

theorem EthBurstOut.carry {base : Ip} {b : EthBurst μ} {o : Out μ} (h : EthBurstOut base b o) :
    (⟨o.vmPkts,o.ethPkts⟩ : Carry μ)=.zero := by
  rw [h.vmPkts,h.ethPkts]
  rfl

theorem ethRxLoop_zero {base : Ip} {bs : List (EthBurst μ)} {c : Carry μ}
    (hn : ∀ b∈bs,b.pkts.length ≤ maxPktBurst) (h : ethRxLoop base .zero bs=some c) : c=.zero := by
  induction bs with
  | nil => exact (Option.some.inj h).symm
  | cons b bs ih =>
    rw [ethRxLoop] at h
    obtain ⟨o,ho,hr⟩ := Option.bind_eq_some_iff.mp h
    rcases ethBurst_spec base b (hn b List.mem_cons_self) with ⟨o',ho',hout,-⟩ | ⟨hnone,-⟩
    · have heq := Option.some.inj (ho'.symm.trans ho)
      subst heq
      rw [hout.carry] at hr
      exact ih (fun b' hb => hn b' (List.mem_cons_of_mem _ hb)) hr
    · rw [hnone] at ho
      cases ho

section
variable {base : Ip} {b : EthBurst μ} {o : Out μ} {j : Nat}

/-- Packet j is in an accepted message when it is a request for the gateway and the ring had
room for it and for those before it. -/
theorem mem_ethMsgs_take (hd : (b.pkts.map Polled.mbuf).Nodup) (hj : j < b.pkts.length) :
    (∃ msg∈((ethSentTo base .slow b.pkts).map fun m =>
      (⟨.arpReq,.eth b.queue,m⟩ : SlowMsg μ)).take b.accSlow,msg.mbuf=b.pkts[j].mbuf) ↔
      ethExitOf base b.pkts[j]=.slow ∧ ethBefore base b .slow j < b.accSlow := by
  rw [ethBefore,← decide_eq_true_iff (p:=ethExitOf base b.pkts[j]=.slow),
    ← mem_bucket_take (p:=fun p => decide (ethExitOf base p=.slow)) hd hj,← List.map_take]
  constructor
  · rintro ⟨msg,hm,he⟩
    obtain ⟨m,hm',rfl⟩ := List.mem_map.mp hm
    exact he ▸ hm'
  · intro hm
    exact ⟨_,List.mem_map.mpr ⟨_,hm,rfl⟩,rfl⟩

/-- A polled mbuf is disposed of exactly when its packet finds room. -/
theorem ethDisposed_iff (h : EthBurstOut base b o) (hfree : o.freed=[])
    (hfound : ∀ p∈b.pkts,b.Found base p) (hd : (b.pkts.map Polled.mbuf).Nodup)
    (hj : j < b.pkts.length) :
    Disposed o b.pkts[j].mbuf ↔ EthFindsRoom base b j (ethExitOf base b.pkts[j]) := by
  have hvm : (∃ v,b.pkts[j].mbuf∈o.vm v) ↔ ∃ v,ethExitOf base b.pkts[j]=.vm v ∧
      ethBefore base b (.vm v) j < b.accVm v := by
    refine exists_congr fun v => ?_
    rw [h.vm v,ethSentTo,mem_bucket_take hd hj,decide_eq_true_eq,ethBefore]
  have heth : ¬∃ q,b.pkts[j].mbuf∈o.eth q := by
    rintro ⟨q,hq⟩
    rw [h.eth] at hq
    cases hq
  have hslow : (∃ msg∈o.slow,msg.mbuf=b.pkts[j].mbuf) ↔ _ := h.slow ▸ mem_ethMsgs_take hd hj
  have hdev := hfound _ (List.getElem_mem hj)
  unfold Disposed
  rw [hvm,hslow,hfree]
  cases he : ethExitOf base b.pkts[j] with
  | vm v => simp [EthFindsRoom,heth,hdev v he]
  | slow => simp [EthFindsRoom,heth]
  | drop => simp [EthFindsRoom,heth]
  | eth q => exact absurd he (ethExitOf_ne_eth q)

/-- Without the device of one of its packets a burst does not run through. -/
theorem room_found (h : ∀ j (hj : j < b.pkts.length),EthFindsRoom base b j
    (ethExitOf base b.pkts[j])) : ∀ p∈b.pkts,b.Found base p := by
  intro p hp v hv
  obtain ⟨j,hj,rfl⟩ := List.getElem_of_mem hp
  have hroom := h j hj
  rw [hv] at hroom
  exact hroom.1

end

/-- In any burst of eth_rx_loop, after any earlier bursts, no polled mbuf leaks if and only if
every packet is for a VM in the device list whose ring has room for it, or is an ARP request
for the gateway that the slow path's ring has room for. -/
theorem eth_no_leak_iff (base : Ip) (prior : List (EthBurst μ)) (c : Carry μ) (b : EthBurst μ)
    (hprior : ∀ b'∈prior,b'.pkts.length ≤ maxPktBurst) (hloop : ethRxLoop base .zero prior=some c)
    (hn : b.pkts.length ≤ maxPktBurst) (hd : (b.pkts.map Polled.mbuf).Nodup) :
    EthNoLeak base c b ↔
      ∀ j (hj : j < b.pkts.length),EthFindsRoom base b j (ethExitOf base b.pkts[j]) := by
  have heq := ethRxLoop_zero hprior hloop
  subst heq
  constructor
  · rintro ⟨o,ho,hall⟩ j hj
    rcases ethBurst_spec base b hn with ⟨o',ho',hout,hfound⟩ | ⟨hnone,-⟩
    · have heq := Option.some.inj (ho'.symm.trans ho)
      subst heq
      exact (ethDisposed_iff hout (ethBurst_freed ho') hfound hd hj).mp
        (hall _ (List.getElem_mem hj))
    · rw [hnone] at ho
      cases ho
  · intro hroom
    rcases ethBurst_spec base b hn with ⟨o,ho,hout,hfound⟩ | ⟨-,p,hp,hmissing⟩
    · refine ⟨o,ho,fun p hp => ?_⟩
      obtain ⟨j,hj,rfl⟩ := List.getElem_of_mem hp
      exact (ethDisposed_iff hout (ethBurst_freed ho) hfound hd hj).mpr (hroom j hj)
    · exact absurd (room_found hroom p hp) hmissing

/-- A packet for VM 3, whose ring has room for one, and an ARP request for the gateway. -/
def knownBurst : EthBurst Nat where
  queue:=0
  snap:=some (VdevList.empty.insert 3 0)
  pkts:=[⟨10,ipv4Frame 5 6,Function.update initRouteTable 6 3⟩,⟨11,gatewayRequest,initRouteTable⟩]
  accVm:=fun _ => 1
  accSlow:=1

/-- A packet for 192.168.100.99, an address of no VM; all rings are empty. -/
def strayBurst : EthBurst Nat where
  queue:=0
  snap:=some .empty
  pkts:=[⟨10,ipv4Frame 5 99,initRouteTable⟩]
  accVm:=fun _ => 64
  accSlow:=64

theorem eth_no_leak_knownBurst : EthNoLeak smallConfig.ip .zero knownBurst := by
  have h0 : ethExitOf smallConfig.ip knownBurst.pkts[0]=.vm 3 := by decide +kernel
  have h1 : ethExitOf smallConfig.ip knownBurst.pkts[1]=.slow := by decide +kernel
  have hloop : ethRxLoop smallConfig.ip (.zero : Carry Nat) []=some .zero := rfl
  apply (eth_no_leak_iff smallConfig.ip [] .zero knownBurst (by simp) hloop (by decide)
    (by decide)).mpr
  intro j hj
  rcases j with - | - | j
  · rw [h0]
    exact ⟨rfl,Nat.zero_lt_one⟩
  · rw [h1]
    show ethBefore smallConfig.ip knownBurst .slow 1 < 1
    decide +kernel
  · have hlen : knownBurst.pkts.length=2 := rfl
    omega

/-- The mbuf of `strayBurst` is in no ring and not freed. -/
theorem eth_stray_frame_leaks :
    ∃ o,ethBurst smallConfig.ip .zero strayBurst=some o ∧ ¬Disposed o 10 := by
  have h0 : ethExitOf smallConfig.ip strayBurst.pkts[0]=.drop := by decide +kernel
  have hfound : ∀ p∈strayBurst.pkts,strayBurst.Found smallConfig.ip p := by
    intro p hp v hv
    have hp' : p=strayBurst.pkts[0] := List.mem_singleton.mp hp
    rw [hp',h0] at hv
    cases hv
  rcases ethBurst_spec smallConfig.ip strayBurst (by decide) with ⟨o,ho,hout,-⟩ | ⟨-,p,hp,hm⟩
  · refine ⟨o,ho,fun hdis => ?_⟩
    have hroom := (ethDisposed_iff hout (ethBurst_freed ho) hfound (by decide)
      (by decide : 0 < strayBurst.pkts.length)).mp hdis
    rw [h0] at hroom
    exact hroom
  · exact absurd (hfound p hp) hm

end Umanet
