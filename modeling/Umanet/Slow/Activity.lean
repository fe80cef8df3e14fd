import Mathlib.Data.List.GetD
import Umanet.Framework.Run
import Umanet.Framework.Window
import Umanet.Slow.PlanRepair

namespace Umanet

open Framework

/-- What a core sees of a device between two recomputations: the lengths of the packets that
vhost_poll has returned, and of those that vhost_rx_loop has added to `byte_wnd`. -/
structure Interval where
  polled : List Nat
  counted : List Nat
  deriving DecidableEq

namespace Interval

def empty : Interval := ⟨[],[]⟩

/-- The traffic of a sequence of intervals, without wrap. -/
def pktTotal (l : List Interval) : Nat := (l.map fun I => I.polled.length).sum
def byteTotal (l : List Interval) : Nat := (l.map fun I => I.counted.sum).sum
def countedTotal (l : List Interval) : Nat := (l.map fun I => I.counted.length).sum

end Interval

namespace VdevRxStats

/-- STATS_ADD on a slot, a uint32 addition. -/
def statsAdd (w : Fin windowSize → Nat) (i : Fin windowSize) (n : Nat) : Fin windowSize → Nat :=
  Function.update w i ((w i+n)%2^32)

/-- vhost_poll, for a burst of n packets. -/
def countPoll (st : VdevRxStats) (n : Nat) : VdevRxStats :=
  if n=0 then {st with emptyWnd:=statsAdd st.emptyWnd st.wndIdx 1}
  else {st with pktWnd:=statsAdd st.pktWnd st.wndIdx n}

/-- vhost_rx_loop, for a packet of the burst. -/
def countBytes (st : VdevRxStats) (len : Nat) : VdevRxStats :=
  {st with byteWnd:=statsAdd st.byteWnd st.wndIdx len}

end VdevRxStats

/-- `vdev_stats[v]` of one core, with the history of the device on that core, which no step
reads. -/
structure DevTraffic where
  stats : VdevRxStats
  cur : Interval
  past : List Interval

namespace DevTraffic

def history (d : DevTraffic) : List Interval := d.cur::d.past

def poll (d : DevTraffic) (lens : List Nat) : DevTraffic :=
  {d with stats:=d.stats.countPoll lens.length,cur:={d.cur with polled:=d.cur.polled++lens}}

def count (d : DevTraffic) (len : Nat) : DevTraffic :=
  {d with stats:=d.stats.countBytes len,cur:={d.cur with counted:=d.cur.counted++[len]}}

/-- A recomputation comes to an entry of the device: the window is rotated, and the interval is
over. -/
def visit (d : DevTraffic) : DevTraffic := ⟨d.stats.rotate,.empty,d.history⟩

end DevTraffic

/-- The devices of every core, and the vid and the packets that vhost_rx_loop on that core has
polled but not yet looked at. -/
structure Activity where
  dev : Nat → Vid → DevTraffic
  burst : Nat → Vid × List Nat

/-- Core i polls vid v, or counts the next packet of its burst; or calculate_vhost_rx_plan goes
through the plan it has loaded for core i, with the list it has loaded. -/
inductive ActivityAct
  | poll (i : Nat) (v : Vid) (lens : List Nat)
  | count (i : Nat)
  | scan (i : Nat) (L : VdevList) (p : VhostPlan)

/-- How often the scan of a plan gets to the window of a vid. A vid that a race of the plan
writers has put into the plan twice is recomputed twice, with an empty interval in between. -/
def visits (L : VdevList) (p : VhostPlan) (v : Vid) : Nat :=
  if L.live v then p.entries.count v else 0

namespace Activity

def modify (s : Activity) (i : Nat) (v : Vid) (f : DevTraffic → DevTraffic) :
    Nat → Vid → DevTraffic :=
  Function.update s.dev i (Function.update (s.dev i) v (f (s.dev i v)))

/-- `vdev_stats` of core i -/
def stats (s : Activity) (i : Nat) (v : Vid) : VdevRxStats := (s.dev i v).stats

def step (s : Activity) : ActivityAct → Option Activity
  | .poll i v lens =>
    if (s.burst i).2=[] ∧ lens.length ≤ maxPktBurst then
      some ⟨s.modify i v fun d => d.poll lens,Function.update s.burst i (v,lens)⟩
    else none
  | .count i =>
    match s.burst i with
    | (_,[]) => none
    | (v,len::rest) => some ⟨s.modify i v fun d => d.count len,Function.update s.burst i (v,rest)⟩
  | .scan i L p => some {s with dev:=Function.update s.dev i fun v =>
      {DevTraffic.visit^[visits L p v] (s.dev i v) with
        stats:=(scanPlan .rx L (s.stats i) p).stats v}}

/-- The packets of v that core i has polled but not counted. -/
def pending (s : Activity) (i : Nat) (v : Vid) : List Nat :=
  if (s.burst i).1=v then (s.burst i).2 else []

/-- Zeroed statistics: nothing in the windows, and no packet on its way to them. -/
structure Fresh (s : Activity) (i : Nat) (v : Vid) : Prop where
  byteWnd : (s.stats i v).byteWnd=fun _ => 0
  pktWnd : (s.stats i v).pktWnd=fun _ => 0
  history : (s.dev i v).history=[.empty]
  pending : s.pending i v=[]

end Activity

theorem scan_stats (L : VdevList) (v : Vid) (l : List Vid) (c : Scan) :
    (l.foldl (scanEntry .rx L) c).stats v=
      VdevRxStats.rotate^[if L.live v then l.count v else 0] (c.stats v) := by
  by_cases hv : L.live v=true
  · rw [if_pos hv]
    exact (scan_rx hv l c).1
  · rw [if_neg hv]
    induction l generalizing c with
    | nil => rfl
    | cons u l ih =>
      rw [List.foldl_cons,ih]
      by_cases hu : L.live u=true
      · have hne : v≠u := by
          rintro rfl
          exact hv hu
        simp [scanEntry,hu,hne]
      · simp [scanEntry,hu]

namespace DevTraffic

variable {d : DevTraffic} {pend : List Nat}

theorem visit_iterate_stats (n : Nat) (d : DevTraffic) :
    (visit^[n] d).stats=VdevRxStats.rotate^[n] d.stats := by
  induction n with
  | zero => rfl
  | succ n ih =>
    rw [Function.iterate_succ_apply',Function.iterate_succ_apply',← ih]
    rfl

/-- The windows hold the end of the history modulo 2^32; what has been counted, with what is
pending, is what has been polled, in order; and counting is at most a burst behind. -/
structure Exact (d : DevTraffic) (pend : List Nat) : Prop where
  bytes : Holds d.stats.byteWnd d.stats.wndIdx 0 (d.history.map fun I => I.counted.sum%2^32)
  pkts : Holds d.stats.pktWnd d.stats.wndIdx 0 (d.history.map fun I => I.polled.length%2^32)
  order : d.history.reverse.flatMap (fun I => I.counted)++pend=
    d.history.reverse.flatMap fun I => I.polled
  late : ∀ k,Interval.countedTotal (d.history.take k)+pend.length ≤
    Interval.pktTotal (d.history.take k)+maxPktBurst

end DevTraffic

theorem statsAdd_holds {w : Fin windowSize → Nat} {i : Fin windowSize} {x : Nat} {l : List Nat}
    (h : Holds w i 0 (x%2^32::l)) (n : Nat) :
    Holds (VdevRxStats.statsAdd w i n) i 0 ((x+n)%2^32::l) := by
  have hset := h.set ((w i+n)%2^32)
  rw [h.current,Nat.mod_add_mod] at hset
  unfold VdevRxStats.statsAdd
  rw [h.current,Nat.mod_add_mod]
  exact hset

namespace DevTraffic

variable {d : DevTraffic} {pend : List Nat}

/-- Totals of a history whose first interval is changed: the later ones do not matter. -/
theorem late_cons {I J : Interval} {past : List Interval} {a b : Nat}
    (h : ∀ k,Interval.countedTotal ((I::past).take k)+a ≤
      Interval.pktTotal ((I::past).take k)+maxPktBurst)
    (hb : b ≤ maxPktBurst)
    (hstep : J.counted.length+b+I.polled.length ≤ I.counted.length+a+J.polled.length) (k : Nat) :
    Interval.countedTotal ((J::past).take k)+b ≤
      Interval.pktTotal ((J::past).take k)+maxPktBurst := by
  cases k with
  | zero => simpa [Interval.countedTotal,Interval.pktTotal] using hb
  | succ k =>
    have hk := h (k+1)
    simp only [Interval.countedTotal,Interval.pktTotal,List.take_succ_cons,List.map_cons,
      List.sum_cons] at hk ⊢
    omega

theorem Exact.pending_le (h : Exact d pend) : pend.length ≤ maxPktBurst := by
  have h0 := h.late 0
  simpa [Interval.countedTotal,Interval.pktTotal] using h0

theorem Exact.poll (h : Exact d []) {lens : List Nat} (hlen : lens.length ≤ maxPktBurst) :
    Exact (d.poll lens) lens where
  bytes := by
    have hb := h.bytes
    unfold DevTraffic.poll VdevRxStats.countPoll
    split <;> exact hb
  pkts := by
    have hp := h.pkts
    unfold DevTraffic.poll VdevRxStats.countPoll
    split
    · next hn =>
      rw [List.eq_nil_of_length_eq_zero hn]
      simpa [history] using hp
    · have hadd := statsAdd_holds hp lens.length
      simpa [history] using hadd
  order := by
    have ho := h.order
    simp only [history,DevTraffic.poll,List.reverse_cons,List.flatMap_append,List.flatMap_cons,
      List.flatMap_nil,List.append_nil] at ho ⊢
    rw [ho,List.append_assoc]
  late := by
    apply late_cons h.late hlen
    simp only [DevTraffic.poll,List.length_append,List.length_nil]
    omega

theorem Exact.count {len : Nat} (h : Exact d (len::pend)) : Exact (d.count len) pend where
  bytes := by
    have hadd := statsAdd_holds h.bytes len
    simpa [history,DevTraffic.count,VdevRxStats.countBytes] using hadd
  pkts := h.pkts
  order := by
    have ho := h.order
    simp only [history,DevTraffic.count,List.reverse_cons,List.flatMap_append,List.flatMap_cons,
      List.flatMap_nil,List.append_nil] at ho ⊢
    rw [← ho]
    simp
  late := by
    have hle := h.pending_le
    rw [List.length_cons] at hle
    apply late_cons h.late (by omega)
    simp only [DevTraffic.count,List.length_append,List.length_cons,List.length_nil]
    omega

theorem Exact.visit (h : Exact d pend) : Exact d.visit pend where
  bytes := h.bytes.advance
  pkts := h.pkts.advance
  order := by
    have ho := h.order
    simpa [history,DevTraffic.visit,Interval.empty] using ho
  late := by
    intro k
    cases k with
    | zero => simpa [Interval.countedTotal,Interval.pktTotal] using h.pending_le
    | succ k =>
      have hk := h.late k
      simpa [history,DevTraffic.visit,Interval.empty,Interval.countedTotal,Interval.pktTotal] using hk

theorem Exact.visits (h : Exact d pend) (n : Nat) : Exact (DevTraffic.visit^[n] d) pend := by
  induction n with
  | zero => exact h
  | succ n ih =>
    rw [Function.iterate_succ_apply']
    exact ih.visit

/-- A packet in the window is no longer than a bound, so the bytes are bounded by the packets. -/
theorem byteTotal_le {l : List Interval} {m : Nat} (h : ∀ I∈l,∀ len∈I.counted,len ≤ m) :
    Interval.byteTotal l ≤ Interval.countedTotal l*m := by
  induction l with
  | nil => exact Nat.zero_le _
  | cons I l ih =>
    have hI := List.sum_le_card_nsmul I.counted m (h I List.mem_cons_self)
    have hl := ih fun J hJ => h J (List.mem_cons_of_mem _ hJ)
    rw [smul_eq_mul] at hI
    simp only [Interval.byteTotal,Interval.countedTotal,List.map_cons,List.sum_cons,Nat.add_mul]
      at hl ⊢
    exact Nat.add_le_add hI hl

/-- The uint32 sum of a window is the total of its intervals modulo 2^32. -/
theorem wndSum_of_holds {w : Fin windowSize → Nat} {i : Fin windowSize} {l : List Interval}
    {f : Interval → Nat} (h : Holds w i 0 (l.map fun I => f I%2^32)) :
    VdevRxStats.wndSum w=((l.take windowSize).map f).sum%2^32 := by
  rw [VdevRxStats.wndSum_eq,h.sum,← List.map_take,List.sum_nat_mod ((l.take windowSize).map f),
    List.map_map]
  rfl

/-- A byte sum can wrap only after more packets than the packet threshold, so that the flag is
right in any case. -/
theorem Exact.active_iff (h : Exact d pend)
    (hpkts : Interval.pktTotal (d.history.take windowSize) < 2^32)
    (hlen : ∀ I∈d.history.take windowSize,∀ len∈I.counted,len ≤ 2^16+14) :
    d.stats.active=true ↔ byteActiveThreshold < Interval.byteTotal (d.history.take windowSize) ∨
      pktActiveThreshold < Interval.pktTotal (d.history.take windowSize) := by
  have hbytes := wndSum_of_holds h.bytes
  have hp := wndSum_of_holds h.pkts
  change _=Interval.byteTotal (d.history.take windowSize)%2^32 at hbytes
  change _=Interval.pktTotal (d.history.take windowSize)%2^32 at hp
  rw [Nat.mod_eq_of_lt hpkts] at hp
  have hle := byteTotal_le hlen
  have hlate := h.late windowSize
  simp only [VdevRxStats.active,Bool.or_eq_true,decide_eq_true_eq,hbytes,hp,gt_iff_lt]
  simp only [byteActiveThreshold,pktActiveThreshold,maxPktBurst] at hlate ⊢
  omega

end DevTraffic

namespace Activity

open DevTraffic

variable {s t : Activity} {i : Nat} {v : Vid}

theorem Fresh.exact (h : s.Fresh i v) : (s.dev i v).Exact (s.pending i v) where
  bytes := by
    rw [show (s.dev i v).stats.byteWnd=_ from h.byteWnd,h.history]
    exact holds_const _ _
  pkts := by
    rw [show (s.dev i v).stats.pktWnd=_ from h.pktWnd,h.history]
    exact holds_const _ _
  order := by
    rw [h.history,h.pending]
    rfl
  late := by
    intro k
    rw [h.history,h.pending]
    cases k with
    | zero => exact Nat.zero_le _
    | succ k => simp [Interval.countedTotal,Interval.empty]

theorem modify_self (s : Activity) (i : Nat) (v : Vid) (f : DevTraffic → DevTraffic) :
    s.modify i v f i v=f (s.dev i v) := by
  rw [modify,Function.update_self,Function.update_self]

theorem modify_of_ne (s : Activity) {i j : Nat} {u v : Vid} (f : DevTraffic → DevTraffic)
    (h : ¬(j=i ∧ u=v)) : s.modify j u f i v=s.dev i v := by
  unfold modify
  by_cases hj : j=i
  · subst hj
    rw [Function.update_self,Function.update_of_ne fun hv => h ⟨rfl,hv.symm⟩]
  · rw [Function.update_of_ne (Ne.symm hj)]

theorem pending_self (dev : Nat → Vid → DevTraffic) (s : Activity) (i : Nat) (v : Vid)
    (l : List Nat) : (⟨dev,Function.update s.burst i (v,l)⟩ : Activity).pending i v=l := by
  simp only [pending,Function.update_self,if_true]

theorem pending_of_ne (dev : Nat → Vid → DevTraffic) (s : Activity) {i j : Nat} {u v : Vid}
    (l : List Nat) (h : ¬(j=i ∧ u=v)) (hnil : j=i → s.pending i v=[]) :
    (⟨dev,Function.update s.burst j (u,l)⟩ : Activity).pending i v=s.pending i v := by
  by_cases hj : j=i
  · subst hj
    rw [hnil rfl]
    simp only [pending,Function.update_self]
    exact if_neg fun hu => h ⟨rfl,hu⟩
  · simp only [pending,Function.update_of_ne (Ne.symm hj)]

/-- What a step does to core i's record of v: a poll, a count, or some visits (none, when the
step is about another core or device). -/
theorem step_dev {a : ActivityAct} (ht : step s a=some t) (i : Nat) (v : Vid) :
    (∃ lens,lens.length ≤ maxPktBurst ∧ s.pending i v=[] ∧ t.dev i v=(s.dev i v).poll lens ∧
      t.pending i v=lens) ∨
    (∃ len rest,s.pending i v=len::rest ∧ t.dev i v=(s.dev i v).count len ∧
      t.pending i v=rest) ∨
    ∃ n,t.dev i v=DevTraffic.visit^[n] (s.dev i v) ∧ t.pending i v=s.pending i v := by
  cases a with
  | poll j u lens =>
    simp only [step] at ht
    split at ht
    · next hg =>
      have ht' := Option.some.inj ht
      subst ht'
      by_cases hself : j=i ∧ u=v
      · obtain ⟨rfl,rfl⟩ := hself
        refine .inl ⟨lens,hg.2,?_,s.modify_self j u fun d => d.poll lens,pending_self _ s ..⟩
        simp [pending,hg.1]
      · refine .inr (.inr ⟨0,s.modify_of_ne (fun d => d.poll lens) hself,?_⟩)
        apply pending_of_ne _ s _ hself
        rintro rfl
        simp [pending,hg.1]
    · cases ht
  | count j =>
    simp only [step] at ht
    split at ht
    · cases ht
    · next u len rest hb =>
      have ht' := Option.some.inj ht
      subst ht'
      by_cases hself : j=i ∧ u=v
      · obtain ⟨rfl,rfl⟩ := hself
        refine .inr (.inl ⟨len,rest,?_,s.modify_self j u fun d => d.count len,pending_self _ s ..⟩)
        simp [pending,hb]
      · refine .inr (.inr ⟨0,s.modify_of_ne (fun d => d.count len) hself,?_⟩)
        apply pending_of_ne _ s _ hself
        rintro rfl
        have hu : u≠v := fun hu => hself ⟨rfl,hu⟩
        simp [pending,hb,hu]
  | scan j L p =>
    have ht' := Option.some.inj ht
    subst ht'
    refine .inr (.inr ?_)
    by_cases hj : j=i
    · subst hj
      refine ⟨visits L p v,?_,rfl⟩
      have hst : (scanPlan .rx L (s.stats j) p).stats v=
          (DevTraffic.visit^[visits L p v] (s.dev j v)).stats := by
        rw [visit_iterate_stats]
        exact scan_stats L v _ _
      simp only [Function.update_self,hst]
    · exact ⟨0,by simp only [Function.update_of_ne (Ne.symm hj)]; rfl,rfl⟩

theorem step_exact {a : ActivityAct} (h : (s.dev i v).Exact (s.pending i v))
    (ht : step s a=some t) : (t.dev i v).Exact (t.pending i v) := by
  rcases step_dev ht i v with ⟨lens,hlen,hnil,hd,hp⟩ | ⟨len,rest,hcons,hd,hp⟩ | ⟨n,hd,hp⟩
  · rw [hnil] at h
    rw [hd,hp]
    exact h.poll hlen
  · rw [hcons] at h
    rw [hd,hp]
    exact h.count
  · rw [hd,hp]
    exact h.visits n

theorem exact_of_reaches {s₀ : Activity} (h0 : s₀.Fresh i v)
    (h : Reaches step anyStep s₀ s) : (s.dev i v).Exact (s.pending i v) :=
  h.invariant h0.exact fun hi _ ht => step_exact hi ht

theorem run_scans_frame {L : VdevList} {plans : Nat → VhostPlan} {l : List Nat}
    (h : run step s (l.map fun j => .scan j L (plans j))=some t) (hi : i∉l) :
    t.dev i=s.dev i := by
  induction l generalizing s with
  | nil =>
    have h' := Option.some.inj h
    subst h'
    rfl
  | cons j l ih =>
    have hne : i≠j := fun he => hi (he ▸ List.mem_cons_self)
    rw [ih h fun hm => hi (List.mem_cons_of_mem _ hm)]
    exact Function.update_of_ne hne ..

/-- The recomputation of all plans is the scans of the cores one after the other: core i's plan
is built from the flags that its scan sets when its turn comes. -/
theorem calculate_scans (S : PlanSide) (n : Nat) (L : VdevList) (hi : i < n)
    (h : run step s ((List.range i).map fun j => .scan j L (S.plans j))=some t) :
    (S.calculate .rx n L s.stats).plans i=
      calculatePlan L S.core i (scanPlan .rx L (t.stats i) (S.plans i)).isActive := by
  have hframe : t.stats i=s.stats i := by
    funext v
    unfold stats
    rw [run_scans_frame h List.not_mem_range_self]
  rw [hframe]
  exact if_pos hi

/-- From zeroed statistics on, whatever the traffic, the polls and the plans: the slots hold the
traffic of the last intervals modulo 2^32, and the flag a recomputation sets for the device when
it comes to its (last) entry is right about the true totals of the last WINDOW_SIZE intervals,
as long as these have fewer than 2^32 packets, none of more than 2^16+14 bytes. -/
theorem activity_window_exact (i : Nat) (v : Vid) (s₀ s : Activity) (h0 : s₀.Fresh i v)
    (h : Reaches step anyStep s₀ s) :
    (∀ k : Fin windowSize,
      (s.stats i v).byteWnd ((s.stats i v).wndIdx-k)=
        ((s.dev i v).history.getD k .empty).counted.sum%2^32 ∧
      (s.stats i v).pktWnd ((s.stats i v).wndIdx-k)=
        ((s.dev i v).history.getD k .empty).polled.length%2^32) ∧
    ((s.dev i v).history.reverse.flatMap (fun I => I.counted)++s.pending i v=
      (s.dev i v).history.reverse.flatMap fun I => I.polled) ∧
    ∀ (L : VdevList) (p : VhostPlan),v∈p.entries → L.live v=true →
      let last := (DevTraffic.visit^[p.entries.count v-1] (s.dev i v)).history.take windowSize
      Interval.pktTotal last < 2^32 → (∀ I∈last,∀ len∈I.counted,len ≤ 2^16+14) →
      ((scanPlan .rx L (s.stats i) p).isActive v=true ↔
        byteActiveThreshold < Interval.byteTotal last ∨
        pktActiveThreshold < Interval.pktTotal last) := by
  have he := exact_of_reaches h0 h
  refine ⟨fun k => ⟨?_,?_⟩,he.order,?_⟩
  · exact (he.bytes k).trans (List.getD_map _ .empty fun I : Interval => I.counted.sum%2^32)
  · exact (he.pkts k).trans (List.getD_map _ .empty fun I : Interval => I.polled.length%2^32)
  · intro L p hmem hlive last hpkts hlen
    have hlast := he.visits (p.entries.count v-1)
    rw [scanPlan_active_iff,← hlast.active_iff hpkts hlen,visit_iterate_stats]
    constructor
    · intro hf
      exact hf.2.2 rfl
    · intro ha
      exact ⟨hmem,hlive,fun _ => ha⟩

def idle : Activity := ⟨fun _ _ => ⟨⟨fun _ => 0,fun _ => 0,fun _ => 0,0⟩,.empty,[]⟩,fun _ => (0,[])⟩

/-- A recomputation comes between the two packets of a burst. -/
def straddling : List ActivityAct :=
  [.poll 0 3 [6000,6000],.count 0,.scan 0 (VdevList.empty.insert 3 0) ⟨1,fun _ => 3⟩,.count 0]

theorem activity_window_exact_straddling : ∃ s,Reaches step anyStep idle s ∧
    (s.dev 0 3).history=[⟨[],[6000]⟩,⟨[6000,6000],[6000]⟩] ∧
    (scanPlan .rx (VdevList.empty.insert 3 0) (s.stats 0) ⟨1,fun _ => 3⟩).isActive 3=true := by
  have hrun : (guardedRun step anyStep idle straddling).map (fun s => (s.dev 0 3).history)=
      some [⟨[],[6000]⟩,⟨[6000,6000],[6000]⟩] := by decide +kernel
  obtain ⟨s,hs,hhist⟩ := exists_reaches_of_guardedRun straddling _ hrun
  refine ⟨s,hs,hhist,?_⟩
  have hfresh : idle.Fresh 0 3 := ⟨rfl,rfl,rfl,rfl⟩
  have hflag := (activity_window_exact 0 3 idle s hfresh hs).2.2 (VdevList.empty.insert 3 0)
    ⟨1,fun _ => 3⟩ (by decide) (by decide)
  have hone : (⟨1,fun _ => 3⟩ : VhostPlan).entries.count 3-1=0 := by decide
  rw [hone,Function.iterate_zero_apply,hhist] at hflag
  exact (hflag (by decide) (by decide)).mpr (.inl (by decide))

end Activity

end Umanet
