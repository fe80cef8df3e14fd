import Umanet.Fast.VhostRx

namespace Umanet

open Framework

variable {μ : Type}

/-- An mbuf the burst has given to a ring, to a message in the slow path's ring, or
back to its pool. -/
def Disposed (o : Out μ) (m : μ) : Prop :=
  (∃ q,m∈o.eth q) ∨ (∃ v,m∈o.vm v) ∨ (∃ msg∈o.slow,msg.mbuf=m) ∨ m∈o.freed

/-- The burst runs through and every polled mbuf has an owner afterwards. -/
def NoLeak (cfg : Config) (rss : Softrss) (c : Carry μ) (b : Burst μ) : Prop :=
  ∃ o,burst cfg rss c b=some o ∧ ∀ p∈b.pkts,Disposed o p.mbuf

def before (cfg : Config) (rss : Softrss) (b : Burst μ) (e : Exit) (j : Nat) : Nat :=
  (b.pkts.take j).countP fun p => decide (exitOf cfg rss p=e)

/-- Packet j finds room at its exit. An egress queue needs none, since it frees what it
cannot enqueue; an address of the subnet that resolves to no vid never has any. -/
def FindsRoom (cfg : Config) (rss : Softrss) (b : Burst μ) (j : Nat) : Exit → Prop
  | .eth _ => True
  | .drop => False
  | .vm v => before cfg rss b (.vm v) j < b.accVm v
  | .slow => b.learnMsgs.length+before cfg rss b .slow j < b.accSlow

/-- The first packet of a learning device is also carried by the learning message. -/
def Carried (b : Burst μ) (j : Nat) : Prop := j=0 ∧ b.learning=true ∧ 0 < b.accSlow

/-- Every packet finds room or is carried, and slow_msgs holds the burst's messages. -/
def RoomForAll (cfg : Config) (rss : Softrss) (b : Burst μ) : Prop :=
  b.learnMsgs.length+before cfg rss b .slow b.pkts.length ≤ maxPktBurst ∧
    ∀ j (hj : j < b.pkts.length),
      FindsRoom cfg rss b j (exitOf cfg rss b.pkts[j]) ∨ Carried b j

section
variable {cfg : Config} {rss : Softrss} {b : Burst μ} {o : Out μ} {j : Nat}

theorem before_all (e : Exit) :
    before cfg rss b e b.pkts.length=(sentTo cfg rss e b.pkts).length := by
  rw [before,List.take_length,sentTo,bucket,List.length_map,List.countP_eq_length_filter]

theorem msgs_length : (b.msgs cfg rss).length=
    b.learnMsgs.length+before cfg rss b .slow b.pkts.length := by
  rw [before_all,Burst.msgs,List.length_append,List.length_map]

/-- Only pkts[0] is in the learning message, and only of a learning device. -/
theorem mem_learnMsgs_take (hd : (b.pkts.map Polled.mbuf).Nodup) (hj : j < b.pkts.length) (k : Nat) :
    (∃ msg∈b.learnMsgs.take k,msg.mbuf=b.pkts[j].mbuf) ↔ j=0 ∧ b.learning=true ∧ 0 < k := by
  unfold Burst.learnMsgs
  split
  · rename_i p ps hl hp
    have hhead : b.pkts[0]=p := by simp [hp]
    rw [hl]
    rcases Nat.eq_zero_or_pos k with rfl | hk
    · simp
    · have ht : ([⟨.macLearning,.vhost b.vid,p.mbuf⟩] : List (SlowMsg μ)).take k=
          [⟨.macLearning,.vhost b.vid,p.mbuf⟩] := List.take_of_length_le hk
      rw [ht]
      constructor
      · rintro ⟨msg,hm,he⟩
        rw [List.mem_singleton] at hm
        subst hm
        refine ⟨?_,rfl,hk⟩
        have h0 : 0 < b.pkts.length := Nat.lt_of_le_of_lt (Nat.zero_le j) hj
        have heq : b.pkts[0]=b.pkts[j] :=
          List.inj_on_of_nodup_map hd (List.getElem_mem h0) (List.getElem_mem hj) (hhead ▸ he)
        exact ((List.Nodup.getElem_inj_iff hd.of_map).mp heq).symm
      · rintro ⟨rfl,-,-⟩
        exact ⟨_,List.mem_singleton_self _,by rw [hhead]⟩
  · rename_i hno
    constructor
    · rintro ⟨msg,hm,-⟩
      simp at hm
    · rintro ⟨rfl,hl,-⟩
      obtain ⟨p,ps,hp⟩ := List.exists_cons_of_length_pos hj
      exact (hno p ps hl hp).elim

/-- Packet j is in an accepted message when its ARP message is, or the learning message. -/
theorem mem_msgs_take (hd : (b.pkts.map Polled.mbuf).Nodup) (hj : j < b.pkts.length) :
    (∃ msg∈(b.msgs cfg rss).take b.accSlow,msg.mbuf=b.pkts[j].mbuf) ↔ Carried b j ∨
      (exitOf cfg rss b.pkts[j]=.slow ∧ b.learnMsgs.length+before cfg rss b .slow j < b.accSlow) := by
  have harp : (∃ msg∈((sentTo cfg rss .slow b.pkts).map fun m =>
      (⟨.arpReq,.vhost b.vid,m⟩ : SlowMsg μ)).take (b.accSlow-b.learnMsgs.length),
        msg.mbuf=b.pkts[j].mbuf) ↔
      b.pkts[j].mbuf∈(sentTo cfg rss .slow b.pkts).take (b.accSlow-b.learnMsgs.length) := by
    rw [← List.map_take]
    constructor
    · rintro ⟨msg,hm,he⟩
      obtain ⟨m,hm',rfl⟩ := List.mem_map.mp hm
      exact he ▸ hm'
    · intro hm
      exact ⟨_,List.mem_map.mpr ⟨_,hm,rfl⟩,rfl⟩
  rw [Burst.msgs,List.take_append]
  simp only [List.mem_append,or_and_right,exists_or]
  rw [mem_learnMsgs_take hd hj,harp,sentTo,mem_bucket_take hd hj]
  simp only [Carried,before,decide_eq_true_eq]
  refine or_congr Iff.rfl (and_congr Iff.rfl ?_)
  omega

/-- A polled mbuf is disposed of exactly when its packet finds room or is carried. -/
theorem disposed_iff (h : BurstOut cfg rss b o) (hd : (b.pkts.map Polled.mbuf).Nodup)
    (hj : j < b.pkts.length) :
    Disposed o b.pkts[j].mbuf ↔ FindsRoom cfg rss b j (exitOf cfg rss b.pkts[j]) ∨ Carried b j := by
  have hmem : ∀ e,b.pkts[j].mbuf∈sentTo cfg rss e b.pkts ↔ exitOf cfg rss b.pkts[j]=e := by
    intro e
    rw [sentTo,mem_bucket hd hj,decide_eq_true_eq]
  have hvm : (∃ v,b.pkts[j].mbuf∈o.vm v) ↔ ∃ v,exitOf cfg rss b.pkts[j]=.vm v ∧
      before cfg rss b (.vm v) j < b.accVm v := by
    refine exists_congr fun v => ?_
    rw [h.vm v,sentTo,mem_bucket_take hd hj,decide_eq_true_eq,before]
  have heth : (∃ q,b.pkts[j].mbuf∈o.eth q) ∨ b.pkts[j].mbuf∈o.freed ↔
      ∃ q,exitOf cfg rss b.pkts[j]=.eth q := by
    rw [h.freed,← exists_or]
    refine exists_congr fun q => ?_
    rw [h.eth q,← hmem,← List.mem_append,List.take_append_drop]
  have hslow : (∃ msg∈(b.msgs cfg rss).take b.accSlow,msg.mbuf=b.pkts[j].mbuf) ↔ _ :=
    mem_msgs_take hd hj
  rw [← h.slow] at hslow
  unfold Disposed
  rw [hvm,hslow]
  cases he : exitOf cfg rss b.pkts[j] with
  | eth q =>
    have hq := heth.mpr ⟨q,he⟩
    simp only [FindsRoom,true_or,iff_true]
    rcases hq with hq | hq
    · exact Or.inl hq
    · exact Or.inr (Or.inr (Or.inr hq))
  | vm v =>
    have hno := mt heth.mp (by simp [he])
    simp only [not_or] at hno
    simp [FindsRoom,hno]
  | slow =>
    have hno := mt heth.mp (by simp [he])
    simp only [not_or] at hno
    simp [FindsRoom,hno,or_comm]
  | drop =>
    have hno := mt heth.mp (by simp [he])
    simp only [not_or] at hno
    simp [FindsRoom,hno]

end

/-- In any burst of vhost_rx_loop, after any earlier bursts, no polled mbuf leaks if
and only if every packet finds room at its exit or is carried by the learning
message, and the slow path's messages fit their array. -/
theorem no_leak_iff (cfg : Config) (rss : Softrss) (prior : List (Burst μ)) (c : Carry μ)
    (b : Burst μ) (hprior : ∀ b'∈prior,b'.pkts.length ≤ maxPktBurst)
    (hloop : vhostRxLoop cfg rss .zero prior=some c) (hn : b.pkts.length ≤ maxPktBurst)
    (hd : (b.pkts.map Polled.mbuf).Nodup) : NoLeak cfg rss c b ↔ RoomForAll cfg rss b := by
  have heq := vhostRxLoop_zero hprior hloop
  subst heq
  have h := burst_spec cfg rss b hn
  rw [msgs_length] at h
  unfold NoLeak RoomForAll
  split at h
  · rename_i hm
    obtain ⟨o,ho,hout⟩ := h
    constructor
    · rintro ⟨o',ho',hall⟩
      have heq := Option.some.inj (ho.symm.trans ho')
      subst heq
      exact ⟨hm,fun j hj => (disposed_iff hout hd hj).mp (hall _ (List.getElem_mem hj))⟩
    · rintro ⟨-,hall⟩
      refine ⟨o,ho,fun p hp => ?_⟩
      obtain ⟨j,hj,rfl⟩ := List.getElem_of_mem hp
      exact (disposed_iff hout hd hj).mpr (hall j hj)
  · rename_i hm
    rw [h]
    simp [hm]

/-- A learning device sends one packet to VM 3, whose ring has room for one, and one
out of the subnet, whose ring is full. -/
def roomyBurst : Burst Nat where
  vid:=0
  learning:=true
  pkts:=[⟨10,ipv4Frame 5 6,Function.update initRouteTable 6 3⟩,
    ⟨11,fun o => if o=12 then 8 else 0,initRouteTable⟩]
  accEth:=fun _ => 0
  accVm:=fun _ => 1
  accSlow:=1

theorem no_leak_roomyBurst :
    RoomForAll smallConfig (fun _ _ => 0) roomyBurst ∧
      NoLeak smallConfig (fun _ _ => 0) .zero roomyBurst := by
  have h0 : exitOf smallConfig (fun _ _ => 0) roomyBurst.pkts[0]=.vm 3 := by decide +kernel
  have h1 : exitOf smallConfig (fun _ _ => 0) roomyBurst.pkts[1]=.eth 0 := by decide +kernel
  have hroom : RoomForAll smallConfig (fun _ _ => 0) roomyBurst := by
    refine ⟨by decide +kernel,fun j hj => Or.inl ?_⟩
    rcases j with - | - | j
    · rw [h0]
      exact Nat.zero_lt_one
    · rw [h1]
      trivial
    · have hlen : roomyBurst.pkts.length=2 := rfl
      omega
  exact ⟨hroom,(no_leak_iff smallConfig (fun _ _ => 0) [] .zero roomyBurst (by simp) rfl
    (by decide) (by decide)).mpr hroom⟩

/-- A packet for 192.168.100.99, an address of no VM; all rings are empty. -/
def unknownBurst : Burst Nat where
  vid:=0
  learning:=false
  pkts:=[⟨10,ipv4Frame 5 99,initRouteTable⟩]
  accEth:=fun _ => 64
  accVm:=fun _ => 64
  accSlow:=64

/-- Its mbuf is in no ring and not freed. -/
theorem unknown_destination_leaks :
    ∃ o,burst smallConfig (fun _ _ => 0) .zero unknownBurst=some o ∧ ¬Disposed o 10 := by
  have h0 : exitOf smallConfig (fun _ _ => 0) unknownBurst.pkts[0]=.drop := by decide +kernel
  have h := burst_spec smallConfig (fun _ _ => 0) unknownBurst (by decide)
  rw [if_pos (by decide +kernel)] at h
  obtain ⟨o,ho,hout⟩ := h
  refine ⟨o,ho,fun hdis => ?_⟩
  rcases (disposed_iff hout (by decide) (by decide : 0 < unknownBurst.pkts.length)).mp hdis with hr | hc
  · rw [h0] at hr
    exact hr
  · exact absurd hc.2.1 (by decide)

end Umanet
