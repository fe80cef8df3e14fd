import Umanet.Framework.CasTable
import Umanet.Vhost.PlanHistory

namespace Umanet

open Framework

/-- What new_device reads and publishes, and the devices that have been given back to the
allocator. -/
structure DevTables where
  list : VdevList
  side : Dir → PlanSide
  freed : DevPtr → Bool

/-- What a call of new_device gets from the allocator: the block for the device, and how the
rounds of its three retry loops end. -/
structure Memory where
  vdev : Option DevPtr
  list : List Round
  plan : Dir → List Round

/-- Return code and tables of vhost_rx_plan_add or vhost_tx_plan_add, n being the number of
cores of its kind. -/
def planAdd (S : PlanSide) (n : Nat) (v : Vid) (rs : List Round) : Option (Int × PlanSide) :=
  match (PlanSide.shortest S.plans n).1 with
  | none => some (-1,S)
  | some i =>
    (retryLoop (fun P => decide (P.num≥maxVhosts)) (·.append v) (S.plans i) rs).map fun
      | none => (-1,S)
      | some P => (0,⟨Function.update S.plans i P,Function.update S.core v i⟩)

namespace DevTables

def setSide (s : DevTables) (dir : Dir) (S : PlanSide) : DevTables :=
  {s with side:=Function.update s.side dir S}

/-- rte_zmalloc of a device -/
def take (s : DevTables) (p : DevPtr) : DevTables :=
  {s with freed:=Function.update s.freed p false}

/-- rte_free of a device -/
def give (s : DevTables) (p : DevPtr) : DevTables :=
  {s with freed:=Function.update s.freed p true}

/-- The two plans, one after the other; each failure gives the device back. -/
def addToPlans (cfg : Config) (s : DevTables) (v : Vid) (p : DevPtr) (m : Memory) :
    Option (Int × DevTables) :=
  (planAdd (s.side .rx) (cfg.cores .rx) v (m.plan .rx)).bind fun rx =>
    if rx.1≠0 then some (-1,(s.setSide .rx rx.2).give p)
    else
      (planAdd (s.side .tx) (cfg.cores .tx) v (m.plan .tx)).map fun tx =>
        if tx.1≠0 then (-1,((s.setSide .rx rx.2).setSide .tx tx.2).give p)
        else (0,(s.setSide .rx rx.2).setSide .tx tx.2)

/-- Return code and tables of new_device; none is a call that is not over after the rounds
given. The device is given back when the list is full and when a plan fails, not when the
list cannot be copied. -/
def newDevice (cfg : Config) (s : DevTables) (v : Vid) (m : Memory) : Option (Int × DevTables) :=
  match m.vdev with
  | none => some (-1,s)
  | some p =>
    if s.list.num≥maxVhosts then some (-1,(s.take p).give p)
    else
      (retryLoop (fun L => decide (L.num≥maxVhosts)) (·.insert v p) s.list m.list).bind fun
        | none => some (-1,s.take p)
        | some L => addToPlans cfg {s.take p with list:=L} v p m

/-- new_device returns -1 only with every table as it was, and with no entry of the list that
refers to a device the call has freed. -/
def AtomicOnFailure (cfg : Config) (s : DevTables) (v : Vid) (m : Memory) : Prop :=
  ∀ t,s.newDevice cfg v m=some (-1,t) → t.list=s.list ∧ t.side=s.side ∧
    ∀ p,m.vdev=some p → t.freed p=true → ∀ u,t.list.vdevs u≠some p

/-- The plan cannot be extended: every one is full, or there is no memory for the copy. -/
def PlanFails (cfg : Config) (s : DevTables) (dir : Dir) (v : Vid) (m : Memory) : Prop :=
  (s.side dir).add (cfg.cores dir) v=none ∨ settles (m.plan dir)=some false

def FailsLate (cfg : Config) (s : DevTables) (v : Vid) (m : Memory) : Prop :=
  s.list.num < maxVhosts ∧ settles m.list=some true ∧ (s.PlanFails cfg .rx v m ∨
    settles (m.plan .rx)=some true ∧ s.PlanFails cfg .tx v m)

end DevTables

/-- vhost_*_plan_add with memory is the atomic operation; without it nothing changes. -/
theorem planAdd_eq (S : PlanSide) (n : Nat) (v : Vid) (rs : List Round) : planAdd S n v rs=
    match S.add n v with
    | none => some (-1,S)
    | some T => (settles rs).map fun ok => if ok then (0,T) else (-1,S) := by
  have hs := PlanSide.shortest_spec S.plans n
  unfold planAdd PlanSide.add
  rcases hsh : PlanSide.shortest S.plans n with ⟨_ | i,m⟩
  · rfl
  · rw [hsh] at hs
    obtain ⟨-,hm,hlt,-⟩ := hs
    have hroom : ¬(S.plans i).num≥maxVhosts := by omega
    dsimp only
    rw [if_neg hroom,retryLoop_of_room (by simpa using hroom),Option.map_map]
    congr 1
    funext ok
    cases ok <;> rfl

namespace DevTables

section
variable {cfg : Config} {s t : DevTables} {v : Vid} {m : Memory} {p : DevPtr}

theorem planAdd_cases (dir : Dir) {r : Int} {S : PlanSide}
    (h : planAdd (s.side dir) (cfg.cores dir) v (m.plan dir)=some (r,S)) :
    (r=-1 ∧ S=s.side dir ∧ s.PlanFails cfg dir v m) ∨
      (r=0 ∧ (s.side dir).add (cfg.cores dir) v=some S ∧ settles (m.plan dir)=some true) := by
  rw [planAdd_eq] at h
  unfold PlanFails
  cases hadd : (s.side dir).add (cfg.cores dir) v with
  | none =>
    rw [hadd] at h
    obtain ⟨rfl,rfl⟩ := Prod.mk.inj (Option.some.inj h)
    exact Or.inl ⟨rfl,rfl,Or.inl rfl⟩
  | some T =>
    rw [hadd] at h
    obtain ⟨ok,hok,he⟩ := Option.map_eq_some_iff.mp h
    cases ok with
    | false =>
      obtain ⟨rfl,rfl⟩ := Prod.mk.inj he
      exact Or.inl ⟨rfl,rfl,Or.inr hok⟩
    | true =>
      obtain ⟨rfl,rfl⟩ := Prod.mk.inj he
      exact Or.inr ⟨rfl,rfl,hok⟩

theorem planAdd_fails (dir : Dir) (h : s.PlanFails cfg dir v m) :
    planAdd (s.side dir) (cfg.cores dir) v (m.plan dir)=some (-1,s.side dir) := by
  rw [planAdd_eq]
  rcases h with h | h
  · rw [h]
  · cases (s.side dir).add (cfg.cores dir) v with
    | none => rfl
    | some T => rw [h]; rfl

theorem addToPlans_list {r : Int} (h : s.addToPlans cfg v p m=some (r,t)) : t.list=s.list := by
  obtain ⟨rx,-,h⟩ := Option.bind_eq_some_iff.mp h
  split at h
  · obtain ⟨-,rfl⟩ := Prod.mk.inj (Option.some.inj h)
    rfl
  · obtain ⟨tx,-,he⟩ := Option.map_eq_some_iff.mp h
    split at he <;> obtain ⟨-,rfl⟩ := Prod.mk.inj he <;> rfl

/-- The plans fail if one cannot be extended, the tx plan after the rx plan. -/
theorem addToPlans_fails_iff : (∃ t,s.addToPlans cfg v p m=some (-1,t)) ↔
    s.PlanFails cfg .rx v m ∨ settles (m.plan .rx)=some true ∧ s.PlanFails cfg .tx v m := by
  unfold addToPlans
  constructor
  · rintro ⟨t,h⟩
    obtain ⟨⟨r,S⟩,hrx,h⟩ := Option.bind_eq_some_iff.mp h
    rcases planAdd_cases .rx hrx with ⟨-,-,hf⟩ | ⟨rfl,-,hok⟩
    · exact Or.inl hf
    · rw [if_neg (by simp)] at h
      obtain ⟨⟨r',S'⟩,htx,he⟩ := Option.map_eq_some_iff.mp h
      rcases planAdd_cases .tx htx with ⟨-,-,hf⟩ | ⟨rfl,-,-⟩
      · exact Or.inr ⟨hok,hf⟩
      · simp at he
  · intro h
    by_cases hrx : s.PlanFails cfg .rx v m
    · rw [planAdd_fails .rx hrx]
      exact ⟨_,rfl⟩
    · obtain ⟨hok,htx⟩ := h.resolve_left hrx
      obtain ⟨T,hT⟩ := Option.ne_none_iff_exists'.mp fun e => hrx (Or.inl e)
      rw [planAdd_eq,hT,hok,planAdd_fails .tx htx]
      exact ⟨_,rfl⟩

theorem addToPlans_succeeds (h : s.addToPlans cfg v p m=some (0,t)) :
    ∃ rx tx,(s.side .rx).add (cfg.cores .rx) v=some rx ∧
      (s.side .tx).add (cfg.cores .tx) v=some tx ∧ t=(s.setSide .rx rx).setSide .tx tx := by
  obtain ⟨⟨r,S⟩,hrx,h⟩ := Option.bind_eq_some_iff.mp h
  rcases planAdd_cases .rx hrx with ⟨rfl,-,-⟩ | ⟨rfl,hS,-⟩
  · simp at h
  · rw [if_neg (by simp)] at h
    obtain ⟨⟨r',S'⟩,htx,he⟩ := Option.map_eq_some_iff.mp h
    rcases planAdd_cases .tx htx with ⟨rfl,-,-⟩ | ⟨rfl,hS',-⟩
    · simp at he
    · obtain ⟨-,rfl⟩ := Prod.mk.inj he
      exact ⟨S,S',hS,hS',rfl⟩

/-- The way past a list with room: copy and exchange, then the plans. -/
theorem newDevice_none (hp : m.vdev=none) : s.newDevice cfg v m=some (-1,s) := by
  rw [newDevice,hp]

theorem newDevice_full (hp : m.vdev=some p) (hfull : s.list.num≥maxVhosts) :
    s.newDevice cfg v m=some (-1,(s.take p).give p) := by
  rw [newDevice,hp]
  exact if_pos hfull

theorem newDevice_room (hp : m.vdev=some p) (hroom : ¬s.list.num≥maxVhosts) :
    s.newDevice cfg v m=(settles m.list).bind fun ok =>
      if ok then addToPlans cfg {s.take p with list:=s.list.insert v p} v p m
      else some (-1,s.take p) := by
  unfold newDevice
  rw [hp]
  dsimp only
  rw [if_neg hroom,retryLoop_of_room (by simpa using hroom)]
  cases settles m.list with
  | none => rfl
  | some ok => cases ok <;> rfl

theorem insert_ne (L : VdevList) (v : Vid) (p : DevPtr) : L.insert v p≠L := by
  intro he
  have hn := congrArg VdevList.num he
  simp only [VdevList.insert] at hn
  omega

end

theorem newDevice_succeeds {cfg : Config} {s t : DevTables} {v : Vid} {m : Memory} {h : Hist}
    (hl : h.list=s.list) (hp : m.vdev=some h.nextDev) (ht : s.newDevice cfg v m=some (0,t)) :
    ∃ g,PlanHist.newDevice cfg ⟨h,s.side⟩ v=some g ∧ g.hist.list=t.list ∧ g.side=t.side := by
  have hroom : ¬s.list.num≥maxVhosts := by
    intro hfull
    rw [newDevice_full hp hfull] at ht
    simp at ht
  rw [newDevice_room hp hroom] at ht
  obtain ⟨ok,-,ht⟩ := Option.bind_eq_some_iff.mp ht
  cases ok with
  | false => simp at ht
  | true =>
    obtain ⟨rx,tx,hrx,htx,rfl⟩ := addToPlans_succeeds ht
    unfold PlanHist.newDevice Hist.newDevice
    rw [hl,if_neg hroom,if_neg hroom]
    have hrx' : (s.side .rx).add (cfg.cores .rx) v=some rx := hrx
    have htx' : (s.side .tx).add (cfg.cores .tx) v=some tx := htx
    rw [hrx',htx']
    refine ⟨_,rfl,rfl,?_⟩
    funext dir
    cases dir <;> rfl

/-- For every state of the tables, every vid and every way the allocator may behave:
new_device is atomic on failure if and only if it does not fail late, that is with the list
already published, and on a full list the block it frees is none that an entry refers to. A call
that succeeds is the atomic operation of the histories. -/
theorem new_device_atomic_iff (cfg : Config) (s : DevTables) (v : Vid) (m : Memory) :
    (s.AtomicOnFailure cfg v m ↔ ∀ p,m.vdev=some p →
      ¬s.FailsLate cfg v m ∧ (s.list.num≥maxVhosts → ∀ u,s.list.vdevs u≠some p)) ∧
    ∀ h t,h.list=s.list → m.vdev=some h.nextDev → s.newDevice cfg v m=some (0,t) →
      ∃ g,PlanHist.newDevice cfg ⟨h,s.side⟩ v=some g ∧ g.hist.list=t.list ∧ g.side=t.side := by
  refine ⟨?_,fun h t hl hp ht => newDevice_succeeds hl hp ht⟩
  constructor
  · intro hatom p hp
    constructor
    · rintro ⟨hlt,hlist,hplans⟩
      obtain ⟨t,ht⟩ := (addToPlans_fails_iff
        (s:={s.take p with list:=s.list.insert v p}) (p:=p)).mpr hplans
      have hnew : s.newDevice cfg v m=some (-1,t) := by
        rw [newDevice_room hp (by omega),hlist]
        exact ht
      have hsame := (hatom t hnew).1
      rw [addToPlans_list ht] at hsame
      exact insert_ne s.list v p hsame
    · intro hfull u
      exact (hatom _ (newDevice_full hp hfull)).2.2 p hp (Function.update_self ..) u
  · intro h t ht
    cases hp : m.vdev with
    | none =>
      rw [newDevice_none hp] at ht
      obtain ⟨-,rfl⟩ := Prod.mk.inj (Option.some.inj ht)
      exact ⟨rfl,rfl,fun p hp' => by cases hp'⟩
    | some p =>
      obtain ⟨hlate,hfree⟩ := h p hp
      by_cases hfull : s.list.num≥maxVhosts
      · rw [newDevice_full hp hfull] at ht
        obtain ⟨-,rfl⟩ := Prod.mk.inj (Option.some.inj ht)
        refine ⟨rfl,rfl,fun q hq _ => ?_⟩
        have heq := Option.some.inj hq
        subst heq
        exact hfree hfull
      · rw [newDevice_room hp hfull] at ht
        obtain ⟨ok,hok,ht⟩ := Option.bind_eq_some_iff.mp ht
        cases ok with
        | true =>
          have hplans := addToPlans_fails_iff.mp ⟨t,ht⟩
          exact absurd ⟨by omega,hok,hplans⟩ hlate
        | false =>
          obtain ⟨-,rfl⟩ := Prod.mk.inj (Option.some.inj ht)
          refine ⟨rfl,rfl,fun q hq hf => ?_⟩
          have heq := Option.some.inj hq
          subst heq
          have hkept : (s.take p).freed p=false := Function.update_self ..
          rw [hkept] at hf
          cases hf

def unused : DevTables := ⟨.empty,fun _ => .init,fun _ => false⟩

/-- Memory for the device and for the list, none for the copy of the rx plan. -/
def noPlanMemory : Memory := ⟨some 0,[.exchanged],fun _ => [.noMemory]⟩

/-- new_device(5) returns -1 with the list published: entry 5 is the freed device. -/
theorem late_failure_leaves_entry :
    ∃ t,unused.newDevice smallConfig 5 noPlanMemory=some (-1,t) ∧ t.list.num=1 ∧
      t.list.vdevs 5=some 0 ∧ t.freed 0=true :=
  ⟨_,rfl,rfl,rfl,rfl⟩

end DevTables

end Umanet
