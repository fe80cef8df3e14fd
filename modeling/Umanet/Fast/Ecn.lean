import Umanet.Fast.Cksum
import Umanet.Fast.Rewrite

namespace Umanet

open Framework

/-- What `ip->hdr_checksum = rte_ipv4_cksum(ip)` leaves in the two bytes, in their order. -/
def hdrCksum (e : Endian) (d : Data) : BitVec 16 := be16 (store16 e d 24 (ipv4Cksum e d)) 24

/-- The frame with CE in its ECN field and the rest as it was. -/
def markTos (d : Data) : Data := store d 15 1 fun _ => d 15 ||| 0x03

section
variable {e : Endian} {d : Data} {o x : Nat}

theorem be16_byte {k : Nat} (hk : k < 2) : (be16 d o).extractLsb' (8*(1-k)) 8=d (o+k) := by
  ext i hi
  rw [BitVec.getElem_extractLsb',be16,BitVec.getLsbD_append]
  obtain rfl | rfl : k=0 ∨ k=1 := by omega
  · rw [if_neg (by omega),Nat.add_zero,← BitVec.getLsbD_eq_getElem hi]
    congr 1
    omega
  · rw [if_pos (by omega),← BitVec.getLsbD_eq_getElem hi]
    congr 1
    omega

/-- A store of 16 bits is determined by what is read back in network order. -/
theorem putBe16_store16 : putBe16 d o (be16 (store16 e d o x) o)=store16 e d o x := by
  funext i
  by_cases hi : o ≤ i ∧ i < o+2
  · obtain ⟨k,rfl⟩ : ∃ k,i=o+k := ⟨i-o,by omega⟩
    have hk : k < 2 := by omega
    rw [putBe16,store_in d o 2 _ hk,be16_byte hk]
  · rw [putBe16,store_out d o 2 _ (by omega),store16_out (by omega)]

theorem putBe16_zero : putBe16 d o 0=store16 e d o 0 := by
  have hzero : be16 (store16 e d o 0) o=0 := by
    apply BitVec.eq_of_toNat_eq
    rw [be16_toNat,(load16_eq_zero_iff e).mpr (load16_store16 (by decide))]
    rfl
  have h := putBe16_store16 (e:=e) (d:=d) (o:=o) (x:=0)
  rwa [hzero] at h

/-- Where ecn_mark_packet marks: TOS first, then the checksum anew. -/
theorem ecnMarkPacket_marks (hty : etherType d=etherTypeIpv4) (hect : d 15 &&& 0x03≠0) :
    ecnMarkPacket (hdrCksum e) d=fillCksum e 24 (ipv4Cksum e) (markTos d) := by
  rw [ecnMarkPacket,if_neg (not_not.mpr hty),if_pos hect]
  change putBe16 (putBe16 (markTos d) 24 0) 24 (hdrCksum e (putBe16 (markTos d) 24 0))=_
  rw [hdrCksum,putBe16_store16,putBe16_zero (e:=e)]
  rfl

theorem ecnMarkPacket_passes (h : etherType d≠etherTypeIpv4 ∨ d 15 &&& 0x03=0) :
    ecnMarkPacket (hdrCksum e) d=d := by
  unfold ecnMarkPacket
  rcases h with hty | hect
  · rw [if_pos hty]
  · rw [if_neg (not_not.mpr hect),ite_self]

theorem markTos_out {i : Nat} (hi : i≠15) : markTos d i=d i := store_out d 15 1 _ (by omega)

theorem markTos_tos : markTos d 15=d 15 ||| 0x03 := store_in d 15 1 _ (k:=0) (by decide)

theorem markTos_markTos : markTos (markTos d)=markTos d := by
  funext i
  by_cases hi : i=15
  · subst hi
    rw [markTos_tos,markTos_tos,BitVec.or_assoc,BitVec.or_self]
  · rw [markTos_out hi]

theorem markTos_store16 (ho : 16 ≤ o) : markTos (store16 e d o x)=store16 e (markTos d) o x := by
  funext i
  by_cases hi : i=15
  · subst hi
    rw [markTos_tos,store16_out (by omega),store16_out (by omega),markTos_tos]
  · rw [markTos_out hi]
    by_cases ho' : o ≤ i ∧ i < o+2
    · simp only [store16,store,if_pos ho']
    · rw [store16_out (by omega),store16_out (by omega),markTos_out hi]

theorem markTos_etherType : etherType (markTos d)=etherType d := be16_store (by decide)

theorem markTos_ihl : ihl (markTos d)=ihl d := by
  rw [ihl,ihl,markTos_out (by decide)]

theorem ce_ecn (b : Byte) : (b ||| 0x03) &&& 0x03=0x03 ∧ (b ||| 0x03) &&& 0xfc=b &&& 0xfc := by
  revert b
  decide

theorem fill_markTos_twice :
    fillCksum e 24 (ipv4Cksum e) (markTos (fillCksum e 24 (ipv4Cksum e) (markTos d)))=
      fillCksum e 24 (ipv4Cksum e) (markTos d) := by
  have hmark : markTos (fillCksum e 24 (ipv4Cksum e) (markTos d))=
      fillCksum e 24 (ipv4Cksum e) (markTos d) := by
    rw [fillCksum_eq_store16,markTos_store16 (by decide),markTos_markTos]
  rw [hmark,fillCksum_fillCksum]

end

/-- A frame that is not IPv4 or not ECN-capable passes unchanged. In any other, whatever its
options, the ECN field becomes CE, DSCP and every byte but TOS and the checksum stay, and the
header verifies. A second mark changes nothing. -/
theorem ecn_mark_valid (e : Endian) (d : Data) :
    (etherType d≠etherTypeIpv4 ∨ d 15 &&& 0x03=0 → ecnMarkPacket (hdrCksum e) d=d) ∧
    (etherType d=etherTypeIpv4 → d 15 &&& 0x03≠0 → 5 ≤ ihl d →
      ecnMarkPacket (hdrCksum e) d 15 &&& 0x03=0x03 ∧
      ecnMarkPacket (hdrCksum e) d 15 &&& 0xfc=d 15 &&& 0xfc ∧
      (∀ i,i≠15 → i≠24 → i≠25 → ecnMarkPacket (hdrCksum e) d i=d i) ∧
      HeaderVerifies (ecnMarkPacket (hdrCksum e) d)) ∧
    ecnMarkPacket (hdrCksum e) (ecnMarkPacket (hdrCksum e) d)=ecnMarkPacket (hdrCksum e) d := by
  have hbyte : ∀ i,i≠24 → i≠25 → fillCksum e 24 (ipv4Cksum e) (markTos d) i=markTos d i := by
    intro i h24 h25
    rw [fillCksum_eq_store16,store16_out (by omega)]
  have htos := hbyte 15 (by decide) (by decide)
  rw [markTos_tos] at htos
  obtain ⟨hce,hdscp⟩ := ce_ecn (d 15)
  refine ⟨ecnMarkPacket_passes,?_,?_⟩
  · intro hty hect hihl
    rw [ecnMarkPacket_marks hty hect,htos]
    refine ⟨hce,hdscp,?_,?_⟩
    · intro i h15 h24 h25
      rw [hbyte i h24 h25,markTos_out h15]
    · apply fillCksum_header_verifies
      rw [markTos_ihl]
      exact hihl
  · by_cases hpass : etherType d≠etherTypeIpv4 ∨ d 15 &&& 0x03=0
    · rw [ecnMarkPacket_passes hpass,ecnMarkPacket_passes hpass]
    · obtain ⟨hty,hect⟩ := not_or.mp hpass
      have hty' : etherType (fillCksum e 24 (ipv4Cksum e) (markTos d))=etherTypeIpv4 := by
        rw [(fillCksum_sameHeader (.inl rfl) _).etherType,markTos_etherType]
        exact not_not.mp hty
      have hect' : fillCksum e 24 (ipv4Cksum e) (markTos d) 15 &&& 0x03≠0 := by
        rw [htos,hce]
        decide
      rw [ecnMarkPacket_marks (not_not.mp hty) hect,ecnMarkPacket_marks hty' hect',
        fill_markTos_twice]

/-- A packet of an ECN-capable sender, with four bytes of options. -/
def ectFrame : Data := fun o =>
  match o with
  | 14 => 0x46 | 15 => 0xba | 17 => 24 | 34 => 7 | 35 => 4
  | _ => ipv4Frame 5 9 o

theorem ecn_mark_ectFrame : ecnMarkPacket (hdrCksum .little) ectFrame 15=0xbb ∧
    HeaderVerifies (ecnMarkPacket (hdrCksum .little) ectFrame) := by
  obtain ⟨-,hmark,-⟩ := ecn_mark_valid .little ectFrame
  obtain ⟨-,-,-,hvalid⟩ := hmark (by decide) (by decide) (by decide)
  refine ⟨?_,hvalid⟩
  rw [ecnMarkPacket_marks (by decide) (by decide),fillCksum_eq_store16,store16_out (by decide)]
  decide

/-- `RING_SIZE` -/
def ringSize : Int := 16384

/-- `ECN_START`, `ECN_MID` and `ECN_HIGH`, in C's integer division -/
def ecnStart : Int := ringSize*1/2
def ecnMid : Int := ringSize*7/10
def ecnHigh : Int := ringSize*85/100

/-- The step of ecn_mark_packets; none is its early return. -/
def ecnStep (congestion : Int) : Option Nat :=
  if congestion < ecnStart then none
  else if congestion < ecnMid then some 16
  else if congestion < ecnHigh then some 4
  else some 1

section
variable {α : Type}

/-- The loop of ecn_mark_packets: `mark` is ecn_mark_packet, the counter a uint32. -/
def ecnLoop (mark : α → α) (step : Nat) : BitVec 32 → List α → List α × BitVec 32
  | rr,[] => ([],rr)
  | rr,m::ms =>
    let rest := ecnLoop mark step (rr+1) ms
    ((if rr.toNat%step=0 then mark m else m)::rest.1,rest.2)

def ecnMarkPackets (mark : α → α) (mbufs : List α) (congestion : Int) (rr : BitVec 32) :
    List α × BitVec 32 :=
  match ecnStep congestion with
  | none => (mbufs,rr)
  | some step => ecnLoop mark step rr mbufs

end

/-- Which of n packets ecn_mark_packets selects: the function itself, on flags. -/
def ecnPicks (n : Nat) (congestion : Int) (rr : BitVec 32) : List Bool :=
  (ecnMarkPackets (fun _ => true) (List.replicate n false) congestion rr).1

/-- Calls one after another on one counter, each with its number of packets and its congestion:
what becomes of the packets of the calls that do not return early. -/
def ecnRun : BitVec 32 → List (Nat × Int) → List Bool
  | _,[] => []
  | rr,(n,congestion)::calls =>
    let r := ecnMarkPackets (fun _ => true) (List.replicate n false) congestion rr
    (if congestion < ecnStart then [] else r.1)++ecnRun r.2 calls

/-- One flag for each of n values of a counter from r on: is it a multiple of step? -/
def multiplesFrom (step r n : Nat) : List Bool := (List.range n).map fun k => decide ((r+k)%step=0)

@[simp] theorem multiplesFrom_length (step r n : Nat) : (multiplesFrom step r n).length=n := by
  simp [multiplesFrom]

theorem multiplesFrom_append (step r n m : Nat) :
    multiplesFrom step r (n+m)=multiplesFrom step r n++multiplesFrom step (r+n) m := by
  simp only [multiplesFrom,List.range_add,List.map_append,List.map_map,List.append_cancel_left_eq]
  apply List.map_congr_left
  intro k _
  simp only [Function.comp,Nat.add_assoc]

theorem multiplesFrom_succ (step r n : Nat) :
    multiplesFrom step r (n+1)=decide (r%step=0)::multiplesFrom step (r+1) n := by
  rw [Nat.add_comm,multiplesFrom_append]
  simp [multiplesFrom]

theorem multiplesFrom_congr {step r r' : Nat} (h : r%step=r'%step) (n : Nat) :
    multiplesFrom step r n=multiplesFrom step r' n := by
  apply List.map_congr_left
  intro k _
  rw [Nat.add_mod,h,← Nat.add_mod]

/-- A stretch of step consecutive values has one multiple of step: moving it by one loses a
value and gains the one that is step larger. -/
theorem multiplesFrom_once {step : Nat} (h : 0 < step) (r : Nat) :
    (multiplesFrom step r step).count true=1 := by
  induction r with
  | zero =>
    obtain ⟨m,rfl⟩ : ∃ m,step=m+1 := ⟨step-1,by omega⟩
    have hrest : (multiplesFrom (m+1) (0+1) m).count true=0 := by
      apply List.count_eq_zero.mpr
      intro hmem
      obtain ⟨k,hk,hdec⟩ := List.mem_map.mp hmem
      have hlt := List.mem_range.mp hk
      have hzero := of_decide_eq_true hdec
      rw [Nat.mod_eq_of_lt (by omega)] at hzero
      omega
    rw [multiplesFrom_succ,List.count_cons,hrest]
    simp
  | succ r ih =>
    have hmove := multiplesFrom_succ step r step
    rw [multiplesFrom_append] at hmove
    have hcount := congrArg (List.count true) hmove
    rw [List.count_append,ih,List.count_cons] at hcount
    simp only [multiplesFrom,List.range_one,List.map_cons,List.map_nil,Nat.add_zero,
      Nat.add_mod_right,List.count_singleton] at hcount ⊢
    omega

theorem multiplesFrom_window {step r n : Nat} (h : 0 < step) {l w k : List Bool}
    (hsplit : multiplesFrom step r n=l++w++k) (hw : w.length=step) : w.count true=1 := by
  have hn : n=l.length+step+k.length := by
    have hlen := congrArg List.length hsplit
    simp only [multiplesFrom_length,List.length_append,hw] at hlen
    exact hlen
  rw [hn,multiplesFrom_append,multiplesFrom_append] at hsplit
  have hfront := List.append_inj_left hsplit (by simp [hw])
  have hmid := List.append_inj_right hfront (by simp)
  rw [← hmid]
  exact multiplesFrom_once h _

theorem ecnStep_cases (congestion : Int) :
    (ecnStep congestion=none ∧ congestion < ecnStart) ∨
    (ecnStep congestion=some 16 ∧ ecnStart ≤ congestion ∧ congestion < ecnMid) ∨
    (ecnStep congestion=some 4 ∧ ecnMid ≤ congestion ∧ congestion < ecnHigh) ∨
    (ecnStep congestion=some 1 ∧ ecnHigh ≤ congestion) := by
  unfold ecnStep
  split_ifs with h₁ h₂ h₃
  · exact .inl ⟨rfl,h₁⟩
  · exact .inr (.inl ⟨rfl,not_lt.mp h₁,h₂⟩)
  · exact .inr (.inr (.inl ⟨rfl,not_lt.mp h₂,h₃⟩))
  · exact .inr (.inr (.inr ⟨rfl,not_lt.mp h₃⟩))

theorem ecnStep_dvd {congestion : Int} {step : Nat} (h : ecnStep congestion=some step) :
    0 < step ∧ step∣16 ∧ ecnStart ≤ congestion := by
  rcases ecnStep_cases congestion with ⟨he,hc⟩ | ⟨he,hc,-⟩ | ⟨he,hc,-⟩ | ⟨he,hc⟩
  · rw [he] at h
    cases h
  all_goals
    rw [he] at h
    have hstep := Option.some.inj h
    subst hstep
    refine ⟨by decide,by decide,le_trans (by decide) hc⟩

/-- Of two congestion values in order, the larger one has the finer step. -/
theorem ecnStep_mono {c₁ c₂ : Int} {step : Nat} (hle : c₁ ≤ c₂) (h : ecnStep c₁=some step) :
    ∃ step',ecnStep c₂=some step' ∧ step'∣step := by
  have hmid : ecnStart ≤ ecnMid := by decide
  have hhigh : ecnMid ≤ ecnHigh := by decide
  rcases ecnStep_cases c₁ with ⟨he,hc⟩ | ⟨he,hc,hc'⟩ | ⟨he,hc,hc'⟩ | ⟨he,hc⟩
  · rw [he] at h
    cases h
  all_goals
    rw [he] at h
    have hstep := Option.some.inj h
    subst hstep
    rcases ecnStep_cases c₂ with ⟨hk,hd⟩ | ⟨hk,hd,hd'⟩ | ⟨hk,hd,hd'⟩ | ⟨hk,hd⟩
    -- a finer step divides the coarser one; the bands the wrong way round do not exist
    all_goals first
      | exact absurd (lt_of_le_of_lt hle hd) (by omega)
      | exact absurd (lt_of_le_of_lt hle hd') (by omega)
      | exact ⟨_,hk,by decide⟩

section
variable {α : Type} {step : Nat}

/-- The wrap of the counter does not show modulo a step that divides its range. -/
theorem counter_mod (h : step∣16) (rr : BitVec 32) (n : Nat) :
    (rr+BitVec.ofNat 32 n).toNat%step=(rr.toNat+n)%step := by
  have hdvd : step∣2^32 := h.trans (by decide)
  rw [BitVec.toNat_add,BitVec.toNat_ofNat,Nat.add_mod_mod,Nat.mod_mod_of_dvd _ hdvd]

theorem ecnLoop_spec (h : step∣16) (mark : α → α) (rr : BitVec 32) (ms : List α) :
    ecnLoop mark step rr ms=
      (List.zipWith (fun m b => if b then mark m else m) ms (multiplesFrom step rr.toNat ms.length),
        rr+BitVec.ofNat 32 ms.length) := by
  induction ms generalizing rr with
  | nil => simp [ecnLoop,multiplesFrom]
  | cons m ms ih =>
    have hcounter := multiplesFrom_congr (counter_mod h rr 1) ms.length
    rw [ecnLoop,ih,List.length_cons,multiplesFrom_succ,List.zipWith_cons_cons]
    refine Prod.ext ?_ ?_
    · simp only [decide_eq_true_eq]
      rw [← hcounter]
      rfl
    · show rr+1+BitVec.ofNat 32 ms.length=rr+BitVec.ofNat 32 (ms.length+1)
      rw [Nat.add_comm,BitVec.ofNat_add,BitVec.add_assoc]
      rfl

end

section
variable {congestion : Int} {step : Nat}

theorem ecnMarkPackets_below {α : Type} (h : ecnStep congestion=none) (mark : α → α)
    (ms : List α) (rr : BitVec 32) : ecnMarkPackets mark ms congestion rr=(ms,rr) := by
  rw [ecnMarkPackets,h]

theorem ecnMarkPackets_band {α : Type} (h : ecnStep congestion=some step) (mark : α → α)
    (ms : List α) (rr : BitVec 32) : ecnMarkPackets mark ms congestion rr=
      (List.zipWith (fun m b => if b then mark m else m) ms (multiplesFrom step rr.toNat ms.length),
        rr+BitVec.ofNat 32 ms.length) := by
  rw [ecnMarkPackets,h]
  exact ecnLoop_spec (ecnStep_dvd h).2.1 mark rr ms

theorem ecnPicks_below (h : ecnStep congestion=none) (n : Nat) (rr : BitVec 32) :
    ecnPicks n congestion rr=List.replicate n false := by
  rw [ecnPicks,ecnMarkPackets_below h]

theorem ecnPicks_band (h : ecnStep congestion=some step) (n : Nat) (rr : BitVec 32) :
    ecnPicks n congestion rr=multiplesFrom step rr.toNat n := by
  rw [ecnPicks,ecnMarkPackets_band h,List.length_replicate]
  apply List.ext_getElem
  · simp
  · intro i hi hi'
    simp

/-- What is done with the packets of a burst is decided by the picks alone. -/
theorem ecnMarkPackets_picks {α : Type} (mark : α → α) (ms : List α) (congestion : Int)
    (rr : BitVec 32) : (ecnMarkPackets mark ms congestion rr).1=
      List.zipWith (fun m b => if b then mark m else m) ms (ecnPicks ms.length congestion rr) := by
  cases h : ecnStep congestion with
  | none =>
    rw [ecnPicks_below h,ecnMarkPackets_below h]
    apply List.ext_getElem
    · simp
    · intro i hi hi'
      simp
  | some step =>
    rw [ecnPicks_band h,ecnMarkPackets_band h]

/-- In one band the calls continue one count, whatever their sizes and whatever is between
them. -/
theorem ecnRun_band {calls : List (Nat × Int)}
    (h : ∀ c∈calls,ecnStep c.2=none ∨ ecnStep c.2=some step) (rr : BitVec 32) :
    ∃ n,ecnRun rr calls=multiplesFrom step rr.toNat n := by
  induction calls generalizing rr with
  | nil => exact ⟨0,rfl⟩
  | cons c calls ih =>
    obtain ⟨n,congestion⟩ := c
    have hcalls := fun c hc => h c (List.mem_cons_of_mem _ hc)
    rcases h _ List.mem_cons_self with hnone | hsome
    · have hlow : congestion < ecnStart := by
        rcases ecnStep_cases congestion with ⟨-,hc⟩ | ⟨he,-⟩ | ⟨he,-⟩ | ⟨he,-⟩
        · exact hc
        all_goals
          rw [hnone] at he
          cases he
      obtain ⟨m,hm⟩ := ih hcalls rr
      refine ⟨m,?_⟩
      rw [ecnRun,if_pos hlow,ecnMarkPackets_below hnone,List.nil_append]
      exact hm
    · obtain ⟨-,hdvd,hstart⟩ := ecnStep_dvd hsome
      obtain ⟨m,hm⟩ := ih hcalls (rr+BitVec.ofNat 32 n)
      have hpicks := ecnPicks_band hsome n rr
      rw [ecnPicks] at hpicks
      refine ⟨n+m,?_⟩
      rw [ecnRun,if_neg (not_lt.mpr hstart),multiplesFrom_append,hpicks,
        ← multiplesFrom_congr (counter_mod hdvd rr n),← hm,ecnMarkPackets_band hsome,
        List.length_replicate]

end

/-- Calls on one counter in one band, of any sizes and from any counter value, with calls below
the band between them: any step consecutive packets have one that is selected. From one counter
value, more congestion selects more packets. Selection is all that decides what a call does. -/
theorem ecn_rate_exact {step : Nat} (hstep : step=16 ∨ step=4 ∨ step=1) :
    (∀ (rr : BitVec 32) (calls : List (Nat × Int)),
      (∀ c∈calls,c.2 < ecnStart ∨ ecnStep c.2=some step) →
      ∀ before window after,ecnRun rr calls=before++window++after → window.length=step →
        window.count true=1) ∧
    (∀ (n : Nat) (c₁ c₂ : Int) (rr : BitVec 32),c₁ ≤ c₂ →
      ∀ i : Nat,(ecnPicks n c₁ rr)[i]?=some true → (ecnPicks n c₂ rr)[i]?=some true) ∧
    (∀ (mark : Data → Data) (ms : List Data) (congestion : Int) (rr : BitVec 32),
      (ecnMarkPackets mark ms congestion rr).1=
        List.zipWith (fun m b => if b then mark m else m) ms
          (ecnPicks ms.length congestion rr)) := by
  refine ⟨?_,?_,ecnMarkPackets_picks⟩
  · intro rr calls hcalls before window after hsplit hlen
    have hband : ∀ c∈calls,ecnStep c.2=none ∨ ecnStep c.2=some step := by
      intro c hc
      rcases hcalls c hc with hlow | hsome
      · exact .inl (if_pos hlow)
      · exact .inr hsome
    obtain ⟨n,hn⟩ := ecnRun_band hband rr
    rw [hn] at hsplit
    exact multiplesFrom_window (by omega) hsplit hlen
  · intro n c₁ c₂ rr hle i hpick
    cases h₁ : ecnStep c₁ with
    | none =>
      rw [ecnPicks_below h₁] at hpick
      have hmem := List.mem_of_getElem? hpick
      cases List.eq_of_mem_replicate hmem
    | some s₁ =>
      obtain ⟨s₂,h₂,hdvd⟩ := ecnStep_mono hle h₁
      rw [ecnPicks_band h₁] at hpick
      rw [ecnPicks_band h₂]
      simp only [multiplesFrom,List.getElem?_map,Option.map_eq_some_iff,decide_eq_true_eq] at hpick ⊢
      obtain ⟨k,hk,hzero⟩ := hpick
      exact ⟨k,hk,Nat.mod_eq_zero_of_dvd (hdvd.trans (Nat.dvd_of_mod_eq_zero hzero))⟩

/-- Two bursts of three packets in the middle band, the counter two short of its wrap, and a call
below ECN_START between them. -/
theorem ecn_rate_exact_wrap :
    ecnRun 0xfffffffe [(3,12000),(7,100),(3,12000)]=[false,false,true,false,false,false] ∧
    [false,true,false,false].count true=1 := by
  refine ⟨by decide +kernel,?_⟩
  have hrun : ecnRun 0xfffffffe [(3,12000),(7,100),(3,12000)]=
      [false]++[false,true,false,false]++[false] := by decide +kernel
  exact (ecn_rate_exact (.inr (.inl rfl))).1 0xfffffffe _ (by decide) _ _ _ hrun rfl

end Umanet
