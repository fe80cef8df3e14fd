import Umanet.Slow.MsgPool
import Umanet.Vhost.NewDevice

namespace Umanet

open Framework

/-- The arrays that are indexed with a vid, and `vids` of the plans. -/
inductive Table
  | vdevs
  | core (dir : Dir)
  | planVids
  | txRings
  deriving DecidableEq

def Table.size : Table → Nat
  | .vdevs => maxVhosts
  | .core _ => maxVhosts
  | .planVids => maxVhosts
  | .txRings => maxVhosts

/-- An array and the index that is used with it. -/
structure IndexUse where
  table : Table
  index : Nat
  deriving DecidableEq

def IndexUse.InBounds (u : IndexUse) : Prop := u.index < u.table.size

/-- init_rings with `--nb-sockets` n: the slots of vhost_tx_rings that get a ring. -/
def initRings (n : Nat) : List IndexUse := (List.range n).map fun i => ⟨.txRings,i⟩

def VhostPlan.reads (p : VhostPlan) : List IndexUse :=
  (List.range p.num).map fun j => ⟨.planVids,j⟩

/-- vhost_*_plan_remove; return code and tables. -/
def planRemove (S : PlanSide) (n : Nat) (v : Vid) (rs : List Round) : Option (Int × PlanSide) :=
  match (List.range n).find? (fun i => decide (v∈(S.plans i).entries)) with
  | none => some (-1,S)
  | some i =>
    (retryLoop (fun _ => false) (·.remove v) (S.plans i) rs).map fun
      | none => (-1,S)
      | some P => (0,⟨Function.update S.plans i P,Function.update S.core v 0⟩)

/-- A retry loop gets memory for its first copy, into which it then stores. -/
def copies : List Round → Bool
  | [] => false
  | .noMemory::_ => false
  | .spurious::_ => true
  | .exchanged::_ => true

namespace DevTables

/-- The plans, after the list; each failure ends the call. -/
def removeFromPlans (cfg : Config) (s : DevTables) (v : Vid) (plan : Dir → List Round) :
    Option DevTables :=
  (planRemove (s.side .rx) (cfg.cores .rx) v (plan .rx)).bind fun rx =>
    if rx.1≠0 then some (s.setSide .rx rx.2)
    else
      (planRemove (s.side .tx) (cfg.cores .tx) v (plan .tx)).map fun tx =>
        (s.setSide .rx rx.2).setSide .tx tx.2

/-- The tables after destroy_device, with what its retry loops get from the allocator. -/
def destroyDevice (cfg : Config) (s : DevTables) (v : Vid) (list : List Round)
    (plan : Dir → List Round) : Option DevTables :=
  match s.list.vdevs v with
  | none => some s
  | some _ =>
    (retryLoop (fun _ => false) (·.remove v) s.list list).bind fun
      | none => some s
      | some L => removeFromPlans cfg {s with list:=L} v plan

/-- new_device gets as far as the store into `new->vdevs[vid]`. -/
def Stores (s : DevTables) (m : Memory) : Prop :=
  m.vdev.isSome=true ∧ s.list.num < maxVhosts ∧ copies m.list=true

/-- Its call of vhost_*_plan_add succeeds: there is a plan with room, and memory. -/
def Plans (cfg : Config) (s : DevTables) (m : Memory) (dir : Dir) : Prop :=
  (PlanSide.shortest (s.side dir).plans (cfg.cores dir)).1.isSome=true ∧
    settles (m.plan dir)=some true

instance (s : DevTables) (m : Memory) : Decidable (s.Stores m) :=
  inferInstanceAs (Decidable (_ ∧ _ ∧ _))

instance (cfg : Config) (s : DevTables) (m : Memory) (dir : Dir) : Decidable (s.Plans cfg m dir) :=
  inferInstanceAs (Decidable (_ ∧ _))

/-- Indices that vhost_*_plan_add uses. -/
def planAddUses (cfg : Config) (s : DevTables) (v : Nat) (m : Memory) (dir : Dir) : List IndexUse :=
  match (PlanSide.shortest (s.side dir).plans (cfg.cores dir)).1 with
  | none => []
  | some i =>
    (if copies (m.plan dir) then [⟨.planVids,((s.side dir).plans i).num⟩] else [])++
      if settles (m.plan dir)=some true then [⟨.core dir,v⟩] else []

/-- Indices that new_device uses. -/
def newDeviceUses (cfg : Config) (s : DevTables) (v : Nat) (m : Memory) : List IndexUse :=
  if s.Stores m then
    ⟨.vdevs,v⟩::if settles m.list=some true then
      planAddUses cfg s v m .rx++if s.Plans cfg m .rx then planAddUses cfg s v m .tx else []
    else []
  else []

/-- The core in whose plan vhost_*_plan_remove finds the vid. -/
def planOf (cfg : Config) (s : DevTables) (v : Vid) (dir : Dir) : Option Nat :=
  (List.range (cfg.cores dir)).find? fun i => decide (v∈((s.side dir).plans i).entries)

/-- Indices that vhost_*_plan_remove uses. -/
def planRemoveUses (cfg : Config) (s : DevTables) (v : Vid) (plan : Dir → List Round) (dir : Dir) :
    List IndexUse :=
  match s.planOf cfg v dir with
  | none => (List.range (cfg.cores dir)).flatMap fun i => ((s.side dir).plans i).reads
  | some i => ((List.range (i+1)).flatMap fun i => ((s.side dir).plans i).reads)++
      if settles (plan dir)=some true then [⟨.core dir,v⟩] else []

/-- Indices that destroy_device uses. -/
def destroyDeviceUses (cfg : Config) (s : DevTables) (v : Vid) (list : List Round)
    (plan : Dir → List Round) : List IndexUse :=
  ⟨.vdevs,v⟩::if s.list.live v=true ∧ settles list=some true then
    planRemoveUses cfg s v plan .rx++
      if (s.planOf cfg v .rx).isSome=true ∧ settles (plan .rx)=some true then
        planRemoveUses cfg s v plan .tx
      else []
  else []

/-- Indices that the threads which go through the plans use: vhost_rx_loop, the dashboard and
the recalculation look every entry up in the list, vhost_tx_loop takes its ring. -/
def readerUses (cfg : Config) (s : DevTables) : List IndexUse :=
  [Dir.rx,Dir.tx].flatMap fun dir => (List.range (cfg.cores dir)).flatMap fun i =>
    let p := (s.side dir).plans i
    p.reads++p.entries.flatMap fun v =>
      ⟨.vdevs,v⟩::match dir with
        | .rx => []
        | .tx => [⟨.txRings,v⟩]

/-- Indices that eth_rx_loop and the flush of both ingress loops use for the vid of a route
entry. -/
def forwardUses (dst : Int) : List IndexUse :=
  match vidOf dst with
  | none => []
  | some v => [⟨.vdevs,v⟩,⟨.txRings,v⟩]

/-- Indices that slowpath_loop uses for a message, with the list it has loaded: process_arp_req
takes the ring of a VM that asks for the gateway. -/
def serveUses (L : VdevList) (f : MsgFields) : List IndexUse :=
  ⟨.vdevs,f.vid⟩::if ∃ h : f.vid < maxVhosts,L.live ⟨f.vid,h⟩=true ∧ f.reason=.arpReq ∧
      f.fromEth=false then [⟨.txRings,f.vid⟩] else []

def calculateUses (dir : Dir) (S : PlanSide) (k : Nat) : List IndexUse :=
  (List.range k).flatMap fun i => (S.plans i).reads++
    (List.finRange maxVhosts).flatMap fun j => [⟨.vdevs,j⟩,⟨.core dir,j⟩]

end DevTables

theorem mem_initRings {n i : Nat} : (⟨.txRings,i⟩ : IndexUse)∈initRings n ↔ i < n := by
  simp [initRings]

theorem copies_of_settles {rs : List Round} (h : settles rs=some true) : copies rs=true := by
  cases rs with
  | nil => simp [settles] at h
  | cons r rs =>
    cases r with
    | noMemory => simp [settles] at h
    | spurious => rfl
    | exchanged => rfl

namespace PlanSide

def Bounded (S : PlanSide) : Prop := ∀ i,(S.plans i).num ≤ maxVhosts

variable {S T : PlanSide} {n : Nat} {v : Vid}

theorem Bounded.update (h : S.Bounded) {P : VhostPlan} (hP : P.num ≤ maxVhosts) (i : Nat)
    (core : Vid → Nat) : Bounded ⟨Function.update S.plans i P,core⟩ := by
  intro j
  show (Function.update S.plans i P j).num ≤ maxVhosts
  by_cases hj : j=i
  · rw [hj,Function.update_self]
    exact hP
  · rw [Function.update_of_ne hj]
    exact h j

theorem add_entries (hb : S.Bounded) (h : S.add n v=some T) : T.Bounded ∧
    ∃ i < n,∀ j u,u∈(T.plans j).entries ↔ u∈(S.plans j).entries ∨ j=i ∧ u=v := by
  obtain ⟨i,hi,hroom,-,rfl⟩ := add_spec h
  refine ⟨hb.update (by rw [VhostPlan.append_num]; omega) i _,i,hi,fun j u => ?_⟩
  show u∈(Function.update S.plans i _ j).entries ↔ _
  by_cases hj : j=i
  · subst hj
    rw [Function.update_self,VhostPlan.append_entries _ _ hroom]
    simp
  · rw [Function.update_of_ne hj]
    simp [hj]

theorem isSome_add_iff : (S.add n v).isSome=true ↔ (shortest S.plans n).1.isSome=true := by
  have hs := shortest_spec S.plans n
  unfold add
  rcases hsh : shortest S.plans n with ⟨_ | i,m⟩
  · simp
  · rw [hsh] at hs
    dsimp only
    rw [if_neg (by omega)]
    simp

/-- The recalculation of the first k cores: what is in a new plan was there before or is live
and of this core, and all those are. -/
theorem calculate_entries (hb : S.Bounded) (dir : Dir) (k : Nat) (L : VdevList)
    (stats : Nat → Vid → VdevRxStats) : (S.calculate dir k L stats).Bounded ∧
    (∀ i u,u∈((S.calculate dir k L stats).plans i).entries →
      u∈(S.plans i).entries ∨ i < k ∧ L.live u=true ∧ S.core u=i) ∧
    ∀ i < k,∀ u,L.live u=true → S.core u=i →
      u∈((S.calculate dir k L stats).plans i).entries := by
  have hplan : ∀ i,(S.calculate dir k L stats).plans i=if i < k then
      calculatePlan L S.core i (scanPlan dir L (stats i) (S.plans i)).isActive
      else S.plans i := fun _ => rfl
  refine ⟨fun i => ?_,fun i u hu => ?_,fun i hi u hlive hcore => ?_⟩
  · rw [hplan]
    split
    · exact (calculatePlan_entries ..).2
    · exact hb i
  · rw [hplan] at hu
    split at hu
    · next hi =>
      rw [(calculatePlan_entries ..).1,List.mem_append,List.mem_filter,List.mem_filter] at hu
      rcases hu with ⟨-,hact⟩ | ⟨-,hprobe⟩
      · exact Or.inl (scanPlan_active dir L _ _ u hact).1
      · simp only [probe,Bool.and_eq_true,decide_eq_true_eq] at hprobe
        exact Or.inr ⟨hi,hprobe.1.2,hprobe.2⟩
    · exact Or.inl hu
  · rw [hplan,if_pos hi,(calculatePlan_entries ..).1,List.mem_append,List.mem_filter,
      List.mem_filter]
    cases hact : (scanPlan dir L (stats i) (S.plans i)).isActive u with
    | true => exact Or.inl ⟨List.mem_finRange u,rfl⟩
    | false => exact Or.inr ⟨List.mem_finRange u,by simp [probe,hact,hlive,hcore]⟩

end PlanSide

theorem planRemove_entries {S T : PlanSide} {n : Nat} {v : Vid} {rs : List Round} {r : Int}
    (hb : S.Bounded) (h : planRemove S n v rs=some (r,T)) : T.Bounded ∧
    ∀ i u,u∈(T.plans i).entries → u∈(S.plans i).entries := by
  unfold planRemove at h
  split at h
  · obtain ⟨-,rfl⟩ := Prod.mk.inj (Option.some.inj h)
    exact ⟨hb,fun _ _ => id⟩
  · next i hfind =>
    have hmem : v∈(S.plans i).entries := by simpa using List.find?_some hfind
    have hpos : 0 < (S.plans i).num := by
      rw [← VhostPlan.entries_length _ (hb i)]
      exact List.length_pos_of_mem hmem
    rw [retryLoop_of_room rfl,Option.map_map] at h
    obtain ⟨ok,-,he⟩ := Option.map_eq_some_iff.mp h
    cases ok with
    | false =>
      obtain ⟨-,rfl⟩ := Prod.mk.inj he
      exact ⟨hb,fun _ _ => id⟩
    | true =>
      obtain ⟨-,rfl⟩ := Prod.mk.inj he
      have hnum := VhostPlan.remove_num (S.plans i) v hpos (hb i)
      have hi := hb i
      refine ⟨hb.update (by omega) i _,fun j u hu => ?_⟩
      by_cases hj : j=i
      · subst hj
        simp only [Function.update_self] at hu
        rw [VhostPlan.remove_entries_mem _ v (hb j) hmem] at hu
        exact List.mem_of_mem_erase hu
      · simpa only [Function.update_of_ne hj] using hu

namespace DevTables

def Bounded (s : DevTables) : Prop := ∀ dir,(s.side dir).Bounded

section
variable {cfg : Config} {s t : DevTables} {v : Vid} {m : Memory}

theorem Bounded.setSide (h : s.Bounded) (dir : Dir) {S : PlanSide} (hS : S.Bounded) :
    (s.setSide dir S).Bounded := by
  intro d
  show (Function.update s.side dir S d).Bounded
  by_cases hd : d=dir
  · rw [hd,Function.update_self]
    exact hS
  · rw [Function.update_of_ne hd]
    exact h d

theorem plans_iff (v : Vid) (dir : Dir) : s.Plans cfg m dir ↔
    ((s.side dir).add (cfg.cores dir) v).isSome=true ∧ settles (m.plan dir)=some true := by
  rw [Plans,PlanSide.isSome_add_iff]

/-- The calls of new_device that come to the end of vhost_tx_plan_add. -/
def Publishes (cfg : Config) (s : DevTables) (m : Memory) : Prop :=
  s.Stores m ∧ settles m.list=some true ∧ s.Plans cfg m .rx ∧ s.Plans cfg m .tx

theorem planAdd_result (hb : s.Bounded) (dir : Dir) {r : Int} {S : PlanSide}
    (h : planAdd (s.side dir) (cfg.cores dir) v (m.plan dir)=some (r,S)) : S.Bounded ∧
    (r=-1 ∧ ¬s.Plans cfg m dir ∧ S=s.side dir ∨ r=0 ∧ s.Plans cfg m dir ∧
      ∃ i < cfg.cores dir,∀ j u,
        u∈(S.plans j).entries ↔ u∈((s.side dir).plans j).entries ∨ j=i ∧ u=v) := by
  rcases planAdd_cases dir h with ⟨rfl,rfl,hfail⟩ | ⟨rfl,hadd,hok⟩
  · refine ⟨hb dir,Or.inl ⟨rfl,?_,rfl⟩⟩
    rw [plans_iff v]
    rintro ⟨hsome,hset⟩
    rcases hfail with hfail | hfail
    · rw [hfail] at hsome
      cases hsome
    · rw [hfail] at hset
      cases hset
  · obtain ⟨hb',hmem⟩ := PlanSide.add_entries (hb dir) hadd
    refine ⟨hb',Or.inr ⟨rfl,?_,hmem⟩⟩
    rw [plans_iff v,hadd]
    exact ⟨rfl,hok⟩

theorem addToPlans_result (hb : s.Bounded) {p : DevPtr} {r : Int}
    (h : s.addToPlans cfg v p m=some (r,t)) : t.Bounded ∧
    (¬(s.Plans cfg m .rx ∧ s.Plans cfg m .tx) ∧ t.side .tx=s.side .tx ∨
      (s.Plans cfg m .rx ∧ s.Plans cfg m .tx) ∧ ∃ i < cfg.cores .tx,∀ j u,
        u∈((t.side .tx).plans j).entries ↔ u∈((s.side .tx).plans j).entries ∨ j=i ∧ u=v) := by
  obtain ⟨⟨rx,S⟩,hrx,h⟩ := Option.bind_eq_some_iff.mp h
  obtain ⟨hbS,⟨rfl,hno,-⟩ | ⟨rfl,hyes,-⟩⟩ := planAdd_result hb .rx hrx
  · obtain ⟨-,rfl⟩ := Prod.mk.inj (Option.some.inj h)
    exact ⟨hb.setSide .rx hbS,Or.inl ⟨fun hp => hno hp.1,rfl⟩⟩
  · rw [if_neg (by simp)] at h
    obtain ⟨⟨tx,S'⟩,htx,he⟩ := Option.map_eq_some_iff.mp h
    obtain ⟨hbS',⟨rfl,hno,hsame⟩ | ⟨rfl,hyes',hmem⟩⟩ := planAdd_result hb .tx htx
    · obtain ⟨-,rfl⟩ := Prod.mk.inj he
      exact ⟨(hb.setSide .rx hbS).setSide .tx hbS',Or.inl ⟨fun hp => hno hp.2,hsame⟩⟩
    · obtain ⟨-,rfl⟩ := Prod.mk.inj he
      exact ⟨(hb.setSide .rx hbS).setSide .tx hbS',Or.inr ⟨⟨hyes,hyes'⟩,hmem⟩⟩

/-- What new_device changes: the list by one device at most, and the tx plans only if it comes
to the end of vhost_tx_plan_add. -/
theorem newDevice_result (hb : s.Bounded) {r : Int} (h : s.newDevice cfg v m=some (r,t)) :
    t.Bounded ∧ (∀ u,t.list.live u=true → s.list.live u=true ∨ u=v) ∧
    (¬s.Publishes cfg m ∧ t.side .tx=s.side .tx ∨
      s.Publishes cfg m ∧ ∃ i < cfg.cores .tx,∀ j u,
        u∈((t.side .tx).plans j).entries ↔ u∈((s.side .tx).plans j).entries ∨ j=i ∧ u=v) := by
  cases hp : m.vdev with
  | none =>
    rw [newDevice_none hp] at h
    obtain ⟨-,rfl⟩ := Prod.mk.inj (Option.some.inj h)
    refine ⟨hb,fun _ => Or.inl,Or.inl ⟨?_,rfl⟩⟩
    rintro ⟨⟨hsome,-⟩,-⟩
    rw [hp] at hsome
    cases hsome
  | some p =>
    by_cases hfull : s.list.num≥maxVhosts
    · rw [newDevice_full hp hfull] at h
      obtain ⟨-,rfl⟩ := Prod.mk.inj (Option.some.inj h)
      refine ⟨hb,fun _ => Or.inl,Or.inl ⟨?_,rfl⟩⟩
      rintro ⟨⟨-,hroom,-⟩,-⟩
      omega
    · rw [newDevice_room hp hfull] at h
      obtain ⟨ok,hok,h⟩ := Option.bind_eq_some_iff.mp h
      cases ok with
      | false =>
        obtain ⟨-,rfl⟩ := Prod.mk.inj (Option.some.inj h)
        refine ⟨hb,fun _ => Or.inl,Or.inl ⟨?_,rfl⟩⟩
        rintro ⟨-,hset,-⟩
        rw [hok] at hset
        cases hset
      | true =>
        have hstores : s.Stores m := by
          refine ⟨?_,by omega,copies_of_settles hok⟩
          rw [hp]
          rfl
        rw [if_pos rfl] at h
        have hlist := addToPlans_list h
        have hres := addToPlans_result (s:={s.take p with list:=s.list.insert v p})
          (fun dir => hb dir) h
        refine ⟨hres.1,fun u hu => ?_,?_⟩
        · rw [hlist,VdevList.live_insert] at hu
          split at hu
          · next he => exact Or.inr he
          · exact Or.inl hu
        · rcases hres.2 with ⟨hno,hsame⟩ | ⟨hyes,hmem⟩
          · exact Or.inl ⟨fun hpub => hno hpub.2.2,hsame⟩
          · exact Or.inr ⟨⟨hstores,hok,hyes⟩,hmem⟩

theorem destroyDevice_result (hb : s.Bounded) {list : List Round} {plan : Dir → List Round}
    (h : s.destroyDevice cfg v list plan=some t) : t.Bounded ∧
    (∀ u,t.list.live u=true → s.list.live u=true) ∧
    ∀ i u,u∈((t.side .tx).plans i).entries → u∈((s.side .tx).plans i).entries := by
  have hlive : ∀ u,(s.list.remove v).live u=true → s.list.live u=true := by
    intro u hu
    rw [VdevList.live_remove] at hu
    split at hu
    · cases hu
    · exact hu
  unfold destroyDevice at h
  split at h
  · have h' := Option.some.inj h
    subst h'
    exact ⟨hb,fun _ => id,fun _ _ => id⟩
  · rw [retryLoop_of_room rfl] at h
    obtain ⟨o,ho,h⟩ := Option.bind_eq_some_iff.mp h
    obtain ⟨ok,-,rfl⟩ := Option.map_eq_some_iff.mp ho
    cases ok with
    | false =>
      have h' := Option.some.inj h
      subst h'
      exact ⟨hb,fun _ => id,fun _ _ => id⟩
    | true =>
      have hb' : Bounded {s with list:=s.list.remove v} := fun dir => hb dir
      obtain ⟨⟨rx,S⟩,hrx,h⟩ := Option.bind_eq_some_iff.mp h
      obtain ⟨hbS,-⟩ := planRemove_entries (hb .rx) hrx
      split at h
      · have h' := Option.some.inj h
        subst h'
        exact ⟨hb'.setSide .rx hbS,hlive,fun _ _ => id⟩
      · obtain ⟨⟨tx,S'⟩,htx,rfl⟩ := Option.map_eq_some_iff.mp h
        obtain ⟨hbS',hmem⟩ := planRemove_entries (hb .tx) htx
        exact ⟨(hb'.setSide .rx hbS).setSide .tx hbS',hlive,hmem⟩

theorem reads_inBounds {p : VhostPlan} (h : p.num ≤ maxVhosts) : ∀ u∈p.reads,u.InBounds := by
  intro u hu
  obtain ⟨j,hj,rfl⟩ := List.mem_map.mp hu
  exact (List.mem_range.mp hj).trans_le h

theorem readerUses_inBounds (hb : s.Bounded) : ∀ u∈s.readerUses cfg,u.InBounds := by
  intro u hu
  obtain ⟨dir,-,hu⟩ := List.mem_flatMap.mp hu
  obtain ⟨i,-,hu⟩ := List.mem_flatMap.mp hu
  rcases List.mem_append.mp hu with hu | hu
  · exact reads_inBounds (hb dir i) u hu
  · obtain ⟨v,-,hu⟩ := List.mem_flatMap.mp hu
    rcases List.mem_cons.mp hu with rfl | hu
    · exact v.isLt
    · cases dir with
      | rx => cases hu
      | tx =>
        rw [List.mem_singleton.mp hu]
        exact v.isLt

theorem planAddUses_inBounds (v : Vid) (dir : Dir) :
    ∀ u∈planAddUses cfg s v m dir,u.InBounds := by
  intro u hu
  have hs := PlanSide.shortest_spec (s.side dir).plans (cfg.cores dir)
  unfold planAddUses at hu
  rcases hsh : PlanSide.shortest (s.side dir).plans (cfg.cores dir) with ⟨_ | i,k⟩
  · rw [hsh] at hu
    cases hu
  · rw [hsh] at hs hu
    rcases List.mem_append.mp hu with hu | hu
    · split at hu
      · rw [List.mem_singleton.mp hu]
        show ((s.side dir).plans i).num < maxVhosts
        omega
      · cases hu
    · split at hu
      · rw [List.mem_singleton.mp hu]
        exact v.isLt
      · cases hu

theorem newDeviceUses_inBounds (v : Vid) : ∀ u∈s.newDeviceUses cfg v m,u.InBounds := by
  intro u hu
  unfold newDeviceUses at hu
  split at hu
  · rcases List.mem_cons.mp hu with rfl | hu
    · exact v.isLt
    · split at hu
      · rcases List.mem_append.mp hu with hu | hu
        · exact planAddUses_inBounds v .rx u hu
        · split at hu
          · exact planAddUses_inBounds v .tx u hu
          · cases hu
      · cases hu
  · cases hu

theorem planRemoveUses_inBounds (hb : s.Bounded) (plan : Dir → List Round) (dir : Dir) :
    ∀ u∈s.planRemoveUses cfg v plan dir,u.InBounds := by
  have hreads : ∀ k,∀ u∈(List.range k).flatMap fun i => ((s.side dir).plans i).reads,
      u.InBounds := by
    intro k u hu
    obtain ⟨i,-,hu⟩ := List.mem_flatMap.mp hu
    exact reads_inBounds (hb dir i) u hu
  intro u hu
  unfold planRemoveUses at hu
  split at hu
  · exact hreads _ u hu
  · rcases List.mem_append.mp hu with hu | hu
    · exact hreads _ u hu
    · split at hu
      · rw [List.mem_singleton.mp hu]
        exact v.isLt
      · cases hu

theorem destroyDeviceUses_inBounds (hb : s.Bounded) (list : List Round) (plan : Dir → List Round) :
    ∀ u∈s.destroyDeviceUses cfg v list plan,u.InBounds := by
  intro u hu
  rcases List.mem_cons.mp hu with rfl | hu
  · exact v.isLt
  · split at hu
    · rcases List.mem_append.mp hu with hu | hu
      · exact planRemoveUses_inBounds hb plan .rx u hu
      · split at hu
        · exact planRemoveUses_inBounds hb plan .tx u hu
        · cases hu
    · cases hu

theorem forwardUses_inBounds (dst : Int) : ∀ u∈forwardUses dst,u.InBounds := by
  intro u hu
  unfold forwardUses at hu
  split at hu
  · cases hu
  · next v _ =>
    simp only [List.mem_cons,List.not_mem_nil,or_false] at hu
    rcases hu with rfl | rfl <;> exact v.isLt

theorem serveUses_inBounds_iff {L : VdevList} {f : MsgFields} :
    (∀ u∈serveUses L f,u.InBounds) ↔ f.vid < maxVhosts := by
  constructor
  · intro h
    exact h ⟨.vdevs,f.vid⟩ List.mem_cons_self
  · intro h u hu
    rcases List.mem_cons.mp hu with rfl | hu
    · exact h
    · split at hu
      · rw [List.mem_singleton.mp hu]
        exact h
      · cases hu

theorem calculateUses_inBounds {S : PlanSide} (hb : S.Bounded) (dir : Dir) (k : Nat) :
    ∀ u∈calculateUses dir S k,u.InBounds := by
  intro u hu
  obtain ⟨i,-,hu⟩ := List.mem_flatMap.mp hu
  rcases List.mem_append.mp hu with hu | hu
  · exact reads_inBounds (hb i) u hu
  · obtain ⟨j,-,hu⟩ := List.mem_flatMap.mp hu
    simp only [List.mem_cons,List.not_mem_nil,or_false] at hu
    rcases hu with rfl | rfl <;> exact j.isLt

end

end DevTables

/-- `MAX_VHOST_DEVICE` of the vhost library. -/
abbrev maxVhostDevice : Nat := 1024

/-- The ids the vhost library has given to connections, those of devices that run, the tables,
the objects of msg_pool and those in slowpath_ring, and the indices used so far. `stamped` says of
an object that vhost_rx_loop has set its vid. After an access outside an array nothing is known
any more. -/
structure Attach where
  connected : Nat → Bool
  running : Nat → Bool
  tables : DevTables
  msgs : MsgId → MsgFields
  stamped : MsgId → Bool
  slowRing : List MsgId
  log : List IndexUse
  wild : Bool

inductive AttachAct
  | connect (socket : Nat)
  | newDevice (vid : Nat) (m : Memory)
  | destroyDevice (vid : Nat) (list : List Round) (plan : Dir → List Round)
  | disconnect (vid : Nat)
  | calculate (dir : Dir) (stats : Nat → Vid → VdevRxStats) (k : Nat)
  | forward (dst : Int)
  | post (o : MsgId) (r : MsgRequest)
  | serve (snap : VdevList)

namespace Attach

/-- Behind init_rings, with n sockets; what the objects of msg_pool hold at first is up to the
allocator. -/
def init (n : Nat) (fields : MsgId → MsgFields) : Attach :=
  ⟨fun _ => false,fun _ => false,.unused,fields,fun _ => false,[],initRings n,false⟩

def freeId (s : Attach) : Option Nat :=
  (List.range maxVhostDevice).find? fun i => !s.connected i

/-- Connections to any of the n sockets; the callbacks for a connection that is there, the
device being started or stopped; the recalculation of plans, up to the core for which memory
runs out; packets for a route entry; messages that an ingress loop puts into a free object, and
slowpath_loop's handling of them. -/
def step (cfg : Config) (n : Nat) (s : Attach) : AttachAct → Option Attach
  | .connect socket =>
    if s.wild=false ∧ socket < n then
      s.freeId.map fun i => {s with connected:=Function.update s.connected i true}
    else none
  | .newDevice vid m =>
    if s.wild=false ∧ s.connected vid=true ∧ s.running vid=false then
      if h : vid < maxVhosts then
        (s.tables.newDevice cfg ⟨vid,h⟩ m).map fun r => {s with
          running:=Function.update s.running vid (decide (r.1=(0 : Int)))
          tables:=r.2
          log:=s.log++s.tables.newDeviceUses cfg vid m}
      else if s.tables.Stores m then some {s with log:=s.log++[⟨.vdevs,vid⟩],wild:=true}
      else some s
    else none
  | .destroyDevice vid list plan =>
    if s.wild=false ∧ s.connected vid=true ∧ s.running vid=true then
      if h : vid < maxVhosts then
        (s.tables.destroyDevice cfg ⟨vid,h⟩ list plan).map fun t => {s with
          running:=Function.update s.running vid false
          tables:=t
          log:=s.log++s.tables.destroyDeviceUses cfg ⟨vid,h⟩ list plan}
      else some {s with log:=s.log++[⟨.vdevs,vid⟩],wild:=true}
    else none
  | .disconnect vid =>
    if s.wild=false ∧ s.connected vid=true ∧ s.running vid=false then
      some {s with connected:=Function.update s.connected vid false}
    else none
  | .calculate dir stats k =>
    if s.wild=false ∧ k ≤ cfg.cores dir then
      let S := (s.tables.side dir).calculate dir k s.tables.list stats
      some {s with
        tables:=s.tables.setSide dir S
        log:=s.log++DevTables.calculateUses dir S k}
    else none
  | .forward dst =>
    if s.wild=false then some {s with log:=s.log++DevTables.forwardUses dst} else none
  | .post o r =>
    if s.wild=false ∧ o∉s.slowRing then
      some {s with
        msgs:=Function.update s.msgs o (r.fill (s.msgs o))
        stamped:=Function.update s.stamped o (r.setVid.isSome || s.stamped o)
        slowRing:=s.slowRing++[o]}
    else none
  | .serve snap =>
    match s.slowRing with
    | o::rest =>
      if s.wild=false then some {s with
        slowRing:=rest
        log:=s.log++DevTables.serveUses snap (s.msgs o)
        wild:=decide (maxVhosts ≤ (s.msgs o).vid)}
      else none
    | [] => none

/-- Every index used so far, and every one the threads use now, is in its array, and
vhost_tx_loop takes only rings that were created. -/
structure Safe (cfg : Config) (n : Nat) (s : Attach) : Prop where
  used : ∀ u∈s.log,u.InBounds
  reads : ∀ u∈s.tables.readerUses cfg,u.InBounds
  rings : ∀ i < cfg.cores .tx,∀ v∈((s.tables.side .tx).plans i).entries,
    (⟨.txRings,v⟩ : IndexUse)∈initRings n

/-- A device that is stored has a vid below MAX_VHOSTS, and one that comes into a tx plan has
its ring, whether from new_device or from the recalculation. A message that slowpath_loop handles
is in an object whose vid vhost_rx_loop has set at some time, or was in range from the start. -/
def IndexOk (cfg : Config) (n : Nat) (fields : MsgId → MsgFields) (s : Attach) : AttachAct → Prop
  | .newDevice vid m => s.tables.Stores m → vid < maxVhosts ∧
      (settles m.list=some true → s.tables.Plans cfg m .rx → s.tables.Plans cfg m .tx → vid < n)
  | .calculate .tx _ k => ∀ v,s.tables.list.live v=true → (s.tables.side .tx).core v < k → v < n
  | .serve _ => ∀ o∈s.slowRing.head?,s.stamped o=true ∨ (fields o).vid < maxVhosts
  | _ => True

structure Inv (fields : MsgId → MsgFields) (s : Attach) : Prop where
  bounded : s.tables.Bounded
  running : ∀ v,s.running v=true → v < maxVhosts
  vids : ∀ o,if s.stamped o then (s.msgs o).vid < maxVhosts else (s.msgs o).vid=(fields o).vid

section
variable {cfg : Config} {n : Nat} {fields : MsgId → MsgFields} {s t : Attach}

theorem init_inv : Inv fields (init n fields) := by
  refine ⟨?_,?_,fun o => rfl⟩
  · intro dir i
    exact Nat.zero_le _
  · intro v hv
    cases hv

theorem Inv.running_update (h : Inv fields s) {vid : Nat} (hlt : vid < maxVhosts) (b : Bool) :
    ∀ v,Function.update s.running vid b v=true → v < maxVhosts := by
  intro v hv
  by_cases he : v=vid
  · exact he ▸ hlt
  · rw [Function.update_of_ne he] at hv
    exact h.running v hv

/-- The rings are created inside their array if the sockets are not more than its slots. -/
theorem init_safe_iff : Safe cfg n (init n fields) ↔ n ≤ maxVhosts := by
  constructor
  · intro h
    by_contra hn
    have hu := h.used ⟨.txRings,maxVhosts⟩ (mem_initRings.mpr (by omega))
    exact absurd hu (Nat.lt_irrefl _)
  · intro hn
    have hinv : Inv fields (init n fields) := init_inv
    refine ⟨?_,DevTables.readerUses_inBounds hinv.bounded,?_⟩
    · intro u hu
      obtain ⟨i,hi,rfl⟩ := List.mem_map.mp hu
      exact (List.mem_range.mp hi).trans_le hn
    · intro i _ v hv
      have hnone : ((init n fields).tables.side .tx).plans i=.zero := rfl
      rw [hnone,VhostPlan.zero_entries] at hv
      cases hv

/-- What a callback adds to the log is harmless as far as the indices are. -/
theorem Safe.extend (h : Safe cfg n s) {us : List IndexUse} (hus : ∀ u∈us,u.InBounds) :
    ∀ u∈s.log++us,u.InBounds := by
  intro u hu
  rcases List.mem_append.mp hu with hu | hu
  · exact h.used u hu
  · exact hus u hu

theorem newDevice_safe (hi : Inv fields s) (hs : Safe cfg n s) {vid : Nat} {m : Memory}
    (ht : s.step cfg n (.newDevice vid m)=some t) :
    Inv fields t ∧ (Safe cfg n t ↔ s.IndexOk cfg n fields (.newDevice vid m)) := by
  simp only [step] at ht
  split at ht
  · split at ht
    · next hlt =>
      obtain ⟨⟨r,T⟩,hnew,rfl⟩ := Option.map_eq_some_iff.mp ht
      obtain ⟨hb,-,htx⟩ := DevTables.newDevice_result hi.bounded hnew
      refine ⟨⟨hb,hi.running_update hlt _,hi.vids⟩,?_,?_⟩
      · intro hsafe hstores
        refine ⟨hlt,?_⟩
        intro hset hrx htx'
        rcases htx with ⟨hno,-⟩ | ⟨-,i,hi,hmem⟩
        · exact absurd ⟨hstores,hset,hrx,htx'⟩ hno
        · have hin : (⟨vid,hlt⟩ : Vid)∈((T.side .tx).plans i).entries :=
            (hmem i _).mpr (Or.inr ⟨rfl,rfl⟩)
          exact mem_initRings.mp (hsafe.rings i hi _ hin)
      · intro hok
        refine ⟨hs.extend (DevTables.newDeviceUses_inBounds ⟨vid,hlt⟩),DevTables.readerUses_inBounds hb,?_⟩
        intro i hi v hv
        rcases htx with ⟨-,hsame⟩ | ⟨⟨hstores,hset,hrx,htx'⟩,j,-,hmem⟩
        · have hv' : v∈((T.side .tx).plans i).entries := hv
          rw [hsame] at hv'
          exact hs.rings i hi v hv'
        · rcases (hmem i v).mp hv with hv | ⟨-,rfl⟩
          · exact hs.rings i hi v hv
          · exact mem_initRings.mpr ((hok hstores).2 hset hrx htx')
    · next hge =>
      split at ht
      · next hstores =>
        have ht' := Option.some.inj ht
        subst ht'
        refine ⟨⟨hi.bounded,hi.running,hi.vids⟩,?_,?_⟩
        · intro hsafe
          have hu := hsafe.used ⟨.vdevs,vid⟩ (List.mem_append_right _ (List.mem_singleton_self _))
          exact absurd hu hge
        · intro hok
          exact absurd (hok hstores).1 hge
      · next hno =>
        have ht' := Option.some.inj ht
        subst ht'
        exact ⟨hi,fun _ hstores => absurd hstores hno,fun _ => hs⟩
  · cases ht

theorem destroyDevice_safe (hi : Inv fields s) (hs : Safe cfg n s) {vid : Nat} {list : List Round}
    {plan : Dir → List Round} (ht : s.step cfg n (.destroyDevice vid list plan)=some t) :
    Inv fields t ∧ Safe cfg n t := by
  simp only [step] at ht
  split at ht
  · next hrun =>
    split at ht
    · next hlt =>
      obtain ⟨T,hT,rfl⟩ := Option.map_eq_some_iff.mp ht
      obtain ⟨hb,-,hmem⟩ := DevTables.destroyDevice_result hi.bounded hT
      refine ⟨⟨hb,hi.running_update hlt _,hi.vids⟩,⟨hs.extend
        (DevTables.destroyDeviceUses_inBounds hi.bounded list plan),DevTables.readerUses_inBounds hb,?_⟩⟩
      intro i hi v hv
      exact hs.rings i hi v (hmem i v hv)
    · next hge => exact absurd (hi.running vid hrun.2.2) hge
  · cases ht

theorem calculate_safe (hi : Inv fields s) (hs : Safe cfg n s) {dir : Dir}
    {stats : Nat → Vid → VdevRxStats} {k : Nat} (ht : s.step cfg n (.calculate dir stats k)=some t) :
    Inv fields t ∧ (Safe cfg n t ↔ s.IndexOk cfg n fields (.calculate dir stats k)) := by
  simp only [step] at ht
  split at ht
  · next hk =>
    have ht' := Option.some.inj ht
    subst ht'
    obtain ⟨hb,hold,hnew⟩ :=
      PlanSide.calculate_entries (hi.bounded dir) dir k s.tables.list stats
    have hb' := hi.bounded.setSide dir hb
    have hused := hs.extend (DevTables.calculateUses_inBounds hb dir k)
    refine ⟨⟨hb',hi.running,hi.vids⟩,?_⟩
    cases dir with
    | rx =>
      exact ⟨fun _ => trivial,fun _ => ⟨hused,DevTables.readerUses_inBounds hb',hs.rings⟩⟩
    | tx =>
      constructor
      · intro hsafe v hlive hcore
        have hin := hnew _ hcore v hlive rfl
        exact mem_initRings.mp (hsafe.rings _ (hcore.trans_le hk.2) v hin)
      · intro hok
        refine ⟨hused,DevTables.readerUses_inBounds hb',?_⟩
        intro i hi v hv
        rcases hold i v hv with hv | ⟨hik,hlive,rfl⟩
        · exact hs.rings i hi v hv
        · exact mem_initRings.mpr (hok v hlive hik)
  · cases ht

/-- The vid of an object stays what it was at first until vhost_rx_loop sets it. -/
theorem Inv.vids_post (hi : Inv fields s) (o : MsgId) (r : MsgRequest) :
    ∀ x,if Function.update s.stamped o (r.setVid.isSome || s.stamped o) x then
      (Function.update s.msgs o (r.fill (s.msgs o)) x).vid < maxVhosts
    else (Function.update s.msgs o (r.fill (s.msgs o)) x).vid=(fields x).vid := by
  intro x
  by_cases hx : x=o
  · subst hx
    rw [Function.update_self,Function.update_self]
    cases r with
    | vhost reason vid => exact vid.isLt
    | eth queue => exact hi.vids x
  · rw [Function.update_of_ne hx,Function.update_of_ne hx]
    exact hi.vids x

theorem Inv.vid_lt_iff (hi : Inv fields s) (o : MsgId) :
    (s.msgs o).vid < maxVhosts ↔ s.stamped o=true ∨ (fields o).vid < maxVhosts := by
  have hvid := hi.vids o
  cases hset : s.stamped o with
  | true =>
    rw [hset,if_pos rfl] at hvid
    exact iff_of_true hvid (.inl rfl)
  | false =>
    rw [hset,if_neg (by simp)] at hvid
    simp [hvid]

theorem serve_safe (hi : Inv fields s) (hs : Safe cfg n s) {snap : VdevList}
    (ht : s.step cfg n (.serve snap)=some t) :
    Inv fields t ∧ (Safe cfg n t ↔ s.IndexOk cfg n fields (.serve snap)) := by
  simp only [step] at ht
  split at ht
  · next o rest hring =>
    split at ht
    · have ht' := Option.some.inj ht
      subst ht'
      have hok : s.IndexOk cfg n fields (.serve snap) ↔ (s.msgs o).vid < maxVhosts := by
        rw [hi.vid_lt_iff]
        simp [IndexOk,hring]
      refine ⟨⟨hi.bounded,hi.running,hi.vids⟩,?_⟩
      rw [hok,← DevTables.serveUses_inBounds_iff (L:=snap)]
      constructor
      · intro hsafe u hu
        exact hsafe.used u (List.mem_append_right _ hu)
      · intro hin
        exact ⟨hs.extend hin,hs.reads,hs.rings⟩
    · cases ht
  · cases ht

/-- A step from a safe state leads to a safe one if and only if it meets the condition. -/
theorem step_safe_iff {a : AttachAct} (hi : Inv fields s) (hs : Safe cfg n s)
    (ht : s.step cfg n a=some t) : Inv fields t ∧ (Safe cfg n t ↔ s.IndexOk cfg n fields a) := by
  cases a with
  | connect socket =>
    simp only [step] at ht
    split at ht
    · obtain ⟨i,-,rfl⟩ := Option.map_eq_some_iff.mp ht
      exact ⟨⟨hi.bounded,hi.running,hi.vids⟩,fun _ => trivial,fun _ => ⟨hs.used,hs.reads,hs.rings⟩⟩
    · cases ht
  | newDevice vid m => exact newDevice_safe hi hs ht
  | destroyDevice vid list plan =>
    obtain ⟨hi',hs'⟩ := destroyDevice_safe hi hs ht
    exact ⟨hi',fun _ => trivial,fun _ => hs'⟩
  | disconnect vid =>
    simp only [step] at ht
    split at ht
    · have ht' := Option.some.inj ht
      subst ht'
      exact ⟨⟨hi.bounded,hi.running,hi.vids⟩,fun _ => trivial,fun _ => ⟨hs.used,hs.reads,hs.rings⟩⟩
    · cases ht
  | calculate dir stats k => exact calculate_safe hi hs ht
  | forward dst =>
    simp only [step] at ht
    split at ht
    · have ht' := Option.some.inj ht
      subst ht'
      exact ⟨⟨hi.bounded,hi.running,hi.vids⟩,fun _ => trivial,
        fun _ => ⟨hs.extend (DevTables.forwardUses_inBounds dst),hs.reads,hs.rings⟩⟩
    · cases ht
  | post o r =>
    simp only [step] at ht
    split at ht
    · have ht' := Option.some.inj ht
      subst ht'
      exact ⟨⟨hi.bounded,hi.running,hi.vids_post o r⟩,fun _ => trivial,
        fun _ => ⟨hs.used,hs.reads,hs.rings⟩⟩
    · cases ht
  | serve snap => exact serve_safe hi hs ht

end

/-- For every number of sockets, every first contents of the message objects and every sequence of
connections, callbacks, recalculations, packets and messages: every index is in its array and every
ring that vhost_tx_loop takes was created if and only if the sockets are not more than the slots of
vhost_tx_rings and every step meets the condition. -/
theorem vid_index_safe_iff (cfg : Config) (n : Nat) (fields : MsgId → MsgFields)
    (as : List AttachAct) :
    Visits (step cfg n) (Safe cfg n) (init n fields) as ↔
      n ≤ maxVhosts ∧ Meets (step cfg n) (IndexOk cfg n fields) (init n fields) as := by
  have hrun (h : Safe cfg n (init n fields)) :
      Visits (step cfg n) (Safe cfg n) (init n fields) as ↔
        Meets (step cfg n) (IndexOk cfg n fields) (init n fields) as :=
    visits_iff_meets (I:=Inv fields) (fun hi hs _ ht => (step_safe_iff hi hs ht).1)
      (fun hi hs ht => (step_safe_iff hi hs ht).2) (init n fields) as init_inv h
  constructor
  · intro hv
    have hs : Safe cfg n (init n fields) := by
      cases as with
      | nil => exact hv
      | cons a as => exact hv.1
    exact ⟨init_safe_iff.mp hs,(hrun hs).mp hv⟩
  · rintro ⟨hn,hm⟩
    exact (hrun (init_safe_iff.mpr hn)).mpr hm

def plenty : Memory := ⟨some 0,[.exchanged],fun _ => [.exchanged]⟩

def zeroFields : MsgId → MsgFields := fun _ => ⟨.arpReq,true,0,0⟩

def sharedSocket : List AttachAct :=
  [.connect 0,.connect 0,.newDevice 0 plenty,.newDevice 1 plenty]

/-- Sixty-five connections to one socket, of which only the last one gets ready. -/
def lateReady : List AttachAct := List.replicate 65 (.connect 0)++[.newDevice 64 plenty]

/-- With one socket, device 1 is in the plan of a vhost_tx core and has no ring; with 65
sockets init_rings writes behind vhost_tx_rings; and a device with vid 64 is stored behind
`vdevs` while the list is empty. -/
theorem vid_index_outside :
    (∃ s,run (step smallConfig 1) (init 1 zeroFields) sharedSocket=some s ∧
      1∈((s.tables.side .tx).plans 1).entries ∧ (⟨.txRings,1⟩ : IndexUse)∉initRings 1) ∧
    (⟨.txRings,64⟩ : IndexUse)∈(init 65 zeroFields).log ∧
    ∃ s,run (step smallConfig 64) (init 64 zeroFields) lateReady=some s ∧ s.tables.list.num=0 ∧
      (⟨.vdevs,64⟩ : IndexUse)∈s.log := by
  have h₁ : ((run (step smallConfig 1) (init 1 zeroFields) sharedSocket).map fun s =>
      decide (1∈((s.tables.side .tx).plans 1).entries))=some true := by decide +kernel
  have h₂ : ((run (step smallConfig 64) (init 64 zeroFields) lateReady).map fun s =>
      (s.tables.list.num,decide ((⟨.vdevs,64⟩ : IndexUse)∈s.log)))=some (0,true) := by
    decide +kernel
  obtain ⟨s,hs,hin⟩ := Option.map_eq_some_iff.mp h₁
  obtain ⟨t,ht,hout⟩ := Option.map_eq_some_iff.mp h₂
  obtain ⟨hnum,hlog⟩ := Prod.mk.inj hout
  refine ⟨⟨s,hs,of_decide_eq_true hin,?_⟩,mem_initRings.mpr (by decide),t,ht,hnum,
    of_decide_eq_true hlog⟩
  rw [mem_initRings]
  decide

/-- A connection is made only while fewer connections are open than there are sockets. -/
def Few (n : Nat) (s : Attach) : AttachAct → Prop
  | .connect _ => (List.range maxVhostDevice).countP s.connected < n
  | _ => True

theorem freeId_lt {n i : Nat} {s : Attach} (hn : n ≤ maxVhostDevice)
    (hfew : (List.range maxVhostDevice).countP s.connected < n) (hi : s.freeId=some i) : i < n := by
  by_contra hge
  have hall : ∀ j∈List.range n,s.connected j=true := by
    intro j hj
    have hlow := (List.find?_range_eq_some.mp hi).2.2 j
    have hj := List.mem_range.mp hj
    simpa using hlow (by omega)
  have hcount : (List.range n).countP s.connected=n := by
    rw [List.countP_eq_length.mpr hall,List.length_range]
  have hle : (List.range n).countP s.connected ≤ (List.range maxVhostDevice).countP s.connected :=
    (List.range_sublist.mpr hn).countP_le
  omega

section
variable {cfg : Config} {n : Nat} {fields : MsgId → MsgFields} {s t : Attach}

/-- All ids in use, and so all vids of the list, are below the number of sockets. -/
structure FewInv (cfg : Config) (n : Nat) (fields : MsgId → MsgFields) (s : Attach) : Prop where
  inv : Inv fields s
  safe : Safe cfg n s
  connected : ∀ v,s.connected v=true → v < n
  live : ∀ v,s.tables.list.live v=true → v < n

/-- The condition on the connections implies the one on the indices. -/
theorem FewInv.indexOk (h : FewInv cfg n fields s) (hn : n ≤ maxVhosts)
    (hf : ∀ o,(fields o).vid < maxVhosts) {a : AttachAct}
    (ht : s.step cfg n a=some t) : s.IndexOk cfg n fields a := by
  cases a with
  | newDevice vid m =>
    have hvid : vid < n := by
      simp only [step] at ht
      split at ht
      · next hc => exact h.connected vid hc.2.1
      · cases ht
    intro _
    exact ⟨by omega,fun _ _ _ => hvid⟩
  | calculate dir stats k =>
    cases dir with
    | rx => trivial
    | tx =>
      intro v hlive _
      exact h.live v hlive
  | serve snap => exact fun o _ => .inr (hf o)
  | _ => trivial

/-- What a step can add: a connection with the lowest free id, and a device that is connected. -/
theorem step_adds (h : Inv fields s) {a : AttachAct} (ht : s.step cfg n a=some t) :
    (∀ v,t.connected v=true → s.connected v=true ∨
      (∃ socket,a=.connect socket) ∧ s.freeId=some v) ∧
    ∀ v,t.tables.list.live v=true → s.tables.list.live v=true ∨ s.connected v=true := by
  cases a with
  | connect socket =>
    simp only [step] at ht
    split at ht
    · obtain ⟨i,hi,rfl⟩ := Option.map_eq_some_iff.mp ht
      refine ⟨fun v hv => ?_,fun v hv => .inl hv⟩
      simp only [Function.update_apply] at hv
      split at hv
      · next he => exact .inr ⟨⟨socket,rfl⟩,he ▸ hi⟩
      · exact .inl hv
    · cases ht
  | newDevice vid m =>
    simp only [step] at ht
    split at ht
    · next hc =>
      split at ht
      · obtain ⟨⟨r,T⟩,hnew,rfl⟩ := Option.map_eq_some_iff.mp ht
        refine ⟨fun v hv => .inl hv,fun v hv => ?_⟩
        rcases (DevTables.newDevice_result h.bounded hnew).2.1 v hv with hv | rfl
        · exact .inl hv
        · exact .inr hc.2.1
      · split at ht <;> cases ht <;> exact ⟨fun v hv => .inl hv,fun v hv => .inl hv⟩
    · cases ht
  | destroyDevice vid list plan =>
    simp only [step] at ht
    split at ht
    · split at ht
      · obtain ⟨T,hT,rfl⟩ := Option.map_eq_some_iff.mp ht
        refine ⟨fun v hv => .inl hv,fun v hv => .inl ?_⟩
        exact (DevTables.destroyDevice_result h.bounded hT).2.1 v hv
      · cases ht
        exact ⟨fun v hv => .inl hv,fun v hv => .inl hv⟩
    · cases ht
  | disconnect vid =>
    simp only [step] at ht
    split at ht
    · cases ht
      refine ⟨fun v hv => .inl ?_,fun v hv => .inl hv⟩
      simp only [Function.update_apply] at hv
      split at hv
      · cases hv
      · exact hv
    · cases ht
  | serve snap =>
    simp only [step] at ht
    split at ht
    · split at ht
      · cases ht
        exact ⟨fun v hv => .inl hv,fun v hv => .inl hv⟩
      · cases ht
    · cases ht
  | _ =>
    simp only [step] at ht
    split at ht
    · cases ht
      exact ⟨fun v hv => .inl hv,fun v hv => .inl hv⟩
    · cases ht

theorem FewInv.step (h : FewInv cfg n fields s) (hn : n ≤ maxVhosts)
    (hf : ∀ o,(fields o).vid < maxVhosts) {a : AttachAct} (hfew : Few n s a)
    (ht : s.step cfg n a=some t) : FewInv cfg n fields t := by
  obtain ⟨hinv,hsafe⟩ := step_safe_iff h.inv h.safe ht
  obtain ⟨hconnected,hlive⟩ := step_adds h.inv ht
  refine ⟨hinv,hsafe.mpr (h.indexOk hn hf ht),fun v hv => ?_,fun v hv => ?_⟩
  · rcases hconnected v hv with hv | ⟨⟨socket,rfl⟩,hfree⟩
    · exact h.connected v hv
    · exact freeId_lt (by simp only [maxVhosts,maxVhostDevice] at *; omega) hfew hfree
  · rcases hlive v hv with hv | hv
    · exact h.live v hv
    · exact h.connected v hv

/-- In terms of connections: with no more sockets than slots, message objects of zeroed memory or
otherwise with vids in range, and never more connections than sockets, no index is outside its
array and no ring is missing. -/
theorem safe_of_few (hn : n ≤ maxVhosts) (hf : ∀ o,(fields o).vid < maxVhosts)
    (h : Reaches (step cfg n) (Few n) (init n fields) s) : Safe cfg n s := by
  have h0 : FewInv cfg n fields (init n fields) := by
    refine ⟨init_inv,init_safe_iff.mpr hn,?_,?_⟩
    · intro v hv
      cases hv
    · intro v hv
      cases hv
  exact (h.invariant h0 fun hi hg ht => hi.step hn hf hg ht).safe

end

end Attach

end Umanet
