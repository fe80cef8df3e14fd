import Umanet.Fast.Leak
import Umanet.Fast.Dispatch

namespace Umanet

open Framework

variable {μ : Type}

/-- Slots of slow_msgs that vhost_rx_loop writes for a burst. The learning message comes
first, then one message for every ARP request for the gateway; the code compares the counter
with nothing. -/
def Burst.slowSlots (cfg : Config) (b : Burst μ) : List Nat :=
  if b.learning=true ∧ 0 < b.pkts.length then
    0::slotsWritten (fun p => gatewayArp cfg.ip p.data) 1 b.pkts
  else slotsWritten (fun p => gatewayArp cfg.ip p.data) 0 b.pkts

/-- Slots of slow_msgs that eth_rx_loop writes for a burst. -/
def EthBurst.slowSlots (base : Ip) (b : EthBurst μ) : List Nat :=
  slotsWritten (fun p => gatewayArp base p.data) 0 b.pkts

/-- A full burst of ARP requests for the gateway from a device that is still learning. -/
def Burst.LearningFlood (cfg : Config) (b : Burst μ) : Prop :=
  b.learning=true ∧ b.pkts.length=maxPktBurst ∧ ∀ p∈b.pkts,gatewayArp cfg.ip p.data=true

/-- In the counts of the burst: the slots written are those below the number of messages. -/
theorem Burst.mem_slowSlots (cfg : Config) (b : Burst μ) (i : Nat) : i∈b.slowSlots cfg ↔
    i < b.learnMsgs.length+b.pkts.countP fun p => gatewayArp cfg.ip p.data := by
  unfold slowSlots learnMsgs
  cases hl : b.learning with
  | false =>
    rw [if_neg (by simp),mem_slotsWritten]
    simp
  | true =>
    cases hp : b.pkts with
    | nil => simp [slotsWritten]
    | cons p ps =>
      rw [if_pos (by simp),List.mem_cons,mem_slotsWritten,List.length_singleton]
      omega

theorem exitOf_slow_iff (cfg : Config) (rss : Softrss) (p : Polled μ) :
    exitOf cfg rss p=.slow ↔ gatewayArp cfg.ip p.data=true := by
  unfold exitOf
  split
  · simp [*]
  · split
    · split <;> simp [*]
    · simp [*]

theorem Burst.slowSlots_msgs (cfg : Config) (rss : Softrss) (b : Burst μ) (i : Nat) :
    i∈b.slowSlots cfg ↔ i < (b.msgs cfg rss).length := by
  have hcount : (b.pkts.countP fun p => gatewayArp cfg.ip p.data)=
      before cfg rss b .slow b.pkts.length := by
    rw [before,List.take_length]
    congr 1
    funext p
    rw [Bool.eq_iff_iff,decide_eq_true_eq,exitOf_slow_iff]
  rw [b.mem_slowSlots,msgs_length,hcount]

/-- The slots and the loop's model: staging has a result iff every slot is one of the array. -/
theorem stage_isSome_iff (cfg : Config) (rss : Softrss) (b : Burst μ)
    (hn : b.pkts.length ≤ maxPktBurst) :
    (stage cfg rss .zero b).isSome=true ↔ ∀ i∈b.slowSlots cfg,i < maxPktBurst := by
  have hs := stage_spec cfg rss b hn
  have hslots : (∀ i∈b.slowSlots cfg,i < maxPktBurst) ↔ (b.msgs cfg rss).length ≤ maxPktBurst := by
    constructor
    · intro h
      by_contra hgt
      have hmem := (b.slowSlots_msgs cfg rss maxPktBurst).mpr (by omega)
      exact absurd (h maxPktBurst hmem) (Nat.lt_irrefl _)
    · intro h i hi
      exact Nat.lt_of_lt_of_le ((b.slowSlots_msgs cfg rss i).mp hi) h
  rw [hslots]
  split at hs
  · rename_i hm
    obtain ⟨st,hst,-⟩ := hs
    simp [hst,hm]
  · rename_i hm
    simp [hs,hm]

theorem Burst.learnMsgs_length_eq_one {b : Burst μ} :
    b.learnMsgs.length=1 ↔ b.learning=true ∧ 0 < b.pkts.length := by
  unfold learnMsgs
  cases b.learning with
  | false => simp
  | true => cases b.pkts <;> simp

/-- For every burst of at most MAX_PKT_BURST packets of any content, every write of
vhost_rx_loop to slow_msgs is in bounds unless the device is learning and all 64 packets
are ARP requests for the gateway; every write of eth_rx_loop is in bounds. -/
theorem slow_staging_bounded_iff (cfg : Config) (b : Burst μ) (e : EthBurst μ)
    (hb : b.pkts.length ≤ maxPktBurst) (he : e.pkts.length ≤ maxPktBurst) :
    ((∀ i∈b.slowSlots cfg,i < maxPktBurst) ↔ ¬b.LearningFlood cfg) ∧
      ∀ i∈e.slowSlots cfg.ip,i < maxPktBurst := by
  have hle : (b.pkts.countP fun p => gatewayArp cfg.ip p.data) ≤ b.pkts.length :=
    List.countP_le_length
  have hlearn := b.learnMsgs_length_le
  refine ⟨⟨fun h hflood => ?_,fun h i hi => ?_⟩,fun i hi => ?_⟩
  · obtain ⟨hl,hlen,hall⟩ := hflood
    have hone : b.learnMsgs.length=1 := Burst.learnMsgs_length_eq_one.mpr
      ⟨hl,by rw [hlen]; decide⟩
    have hcount := List.countP_eq_length.mpr hall
    have hmem := (b.mem_slowSlots cfg maxPktBurst).mpr (by omega)
    exact absurd (h maxPktBurst hmem) (Nat.lt_irrefl _)
  · rw [b.mem_slowSlots] at hi
    -- a 65th message needs the learning message and one for each of 64 packets
    by_contra hge
    apply h
    have hone : b.learnMsgs.length=1 := by omega
    exact ⟨(Burst.learnMsgs_length_eq_one.mp hone).1,by omega,
      List.countP_eq_length.mp (by omega)⟩
  · rw [EthBurst.slowSlots,mem_slotsWritten] at hi
    have hcount : (e.pkts.countP fun p => gatewayArp cfg.ip p.data) ≤ e.pkts.length :=
      List.countP_le_length
    omega

def requestsOnWire : EthBurst Nat where
  queue:=0
  snap:=none
  pkts:=List.replicate 63 ⟨10,gatewayRequest,initRouteTable⟩
  accVm:=fun _ => 0
  accSlow:=64

theorem slow_staging_roomyBurst : (∀ i∈roomyBurst.slowSlots smallConfig,i < maxPktBurst) ∧
    ∀ i∈requestsOnWire.slowSlots smallConfig.ip,i < maxPktBurst := by
  have h := slow_staging_bounded_iff smallConfig roomyBurst requestsOnWire (by decide) (by decide)
  refine ⟨h.1.mpr fun hflood => ?_,h.2⟩
  exact absurd hflood.2.1 (by decide)

/-- The 65th message of `requestFlood` is written to slot 64. -/
theorem flood_writes_past_slow_msgs :
    requestFlood.pkts.length=maxPktBurst ∧ 64∈requestFlood.slowSlots smallConfig := by
  refine ⟨by decide,?_⟩
  rw [Burst.mem_slowSlots]
  decide +kernel

end Umanet
