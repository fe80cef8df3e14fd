import Umanet.Framework.Registry
import Umanet.System.Switch

namespace Umanet

open Framework

/-- What link_vmdq and unlink_vmdq use of the port: its addresses, rte_eth_dev_mac_addr_add,
whose outcome also depends on `ω` (free slots, the driver), and rte_eth_dev_mac_addr_remove. -/
structure MacFilter (τ ω : Type) where
  own : Mac
  start : τ
  has : τ → Mac → Prop
  add : ω → τ → Mac → τ
  remove : τ → Mac → τ

variable {τ ω : Type}

/-- What is assumed of DPDK: the port starts with its own address, a call changes nothing for other
addresses than the given one, and an address that is removed is gone unless it is the port's own.
An address that is added need not get in. -/
structure MacFilter.Regular (F : MacFilter τ ω) : Prop where
  start : ∀ {y},F.has F.start y → y=F.own
  add : ∀ w t {m y},y≠m → (F.has (F.add w t m) y ↔ F.has t y)
  remove : ∀ t {m y},y≠m → (F.has (F.remove t m) y ↔ F.has t y)
  gone : ∀ t {m},m≠F.own → ¬F.has (F.remove t m) m

/-- The control plane with the addresses of the port. -/
structure NicHist (τ : Type) where
  hist : Hist
  table : τ

namespace NicHist

variable (F : MacFilter τ ω)

def init : NicHist τ := ⟨.init,F.start⟩

/-- What an operation does to the port: link_vmdq adds the address it learns, unlink_vmdq removes
the one of a device that is ready. -/
def tableAfter (s : NicHist τ) (w : ω) : Op → τ
  | .destroyDevice v _ =>
    match s.hist.list.vdevs v with
    | none => s.table
    | some p =>
      if (s.hist.devs p).ready=.rx then F.remove s.table (s.hist.devs p).mac else s.table
  | .learn _ =>
    match s.hist.learning with
    | none => s.table
    | some (_,_,d) => F.add w s.table (srcMac d)
  | _ => s.table

def step (ethRxQueues : Nat) (s : NicHist τ) (a : Op × ω) : Option (NicHist τ) :=
  (s.hist.step ethRxQueues a.1).map fun h => ⟨h,s.tableAfter F a.2 a.1⟩

/-- The address that the port takes frames for because of VM v. -/
def portMac (h : Hist) (v : Vid) : Option Mac :=
  (h.list.vdevs v).bind fun p =>
    if (h.devs p).ready=.rx ∧ (h.devs p).mac≠F.own then some (h.devs p).mac else none

/-- Besides its own address the port takes exactly those of the devices that are connected and
ready. -/
def Coherent (s : NicHist τ) : Prop :=
  Lists (portMac F s.hist) fun m => m≠F.own ∧ F.has s.table m

/-- A learned address gets into the table, and one that it replaces is another VM's as well; a
VM that leaves shares its address with no other. -/
def MacClean (s : NicHist τ) (a : Op × ω) : Prop :=
  match a.1 with
  | .destroyDevice v _ => ∀ m,portMac F s.hist v=some m → ∀ u,u≠v → portMac F s.hist u≠some m
  | .learn _ => ∀ v p d,s.hist.learning=some (v,p,d) →
      (srcMac d≠F.own → F.has (F.add a.2 s.table (srcMac d)) (srcMac d)) ∧
      ∀ m,portMac F s.hist v=some m → m≠srcMac d → ∃ u,u≠v ∧ portMac F s.hist u=some m
  | _ => True

section
variable {F} {q : Nat} {s t : NicHist τ}

theorem portMac_congr {h h' : Hist} {v : Vid} (hl : h'.list.vdevs v=h.list.vdevs v)
    (hd : ∀ p,h.list.vdevs v=some p → h'.devs p=h.devs p) : portMac F h' v=portMac F h v := by
  unfold portMac
  rw [hl]
  cases hp : h.list.vdevs v with
  | none => rfl
  | some p => simp only [Option.bind_some,hd p hp]

theorem portMac_newDevice {h : Hist} (hw : h.Wf) {v : Vid} (hv : h.list.vdevs v=none) :
    portMac F (h.newDevice v)=portMac F h := by
  funext u
  unfold Hist.newDevice
  split
  · rfl
  · by_cases hu : u=v
    · subst hu
      simp [portMac,VdevList.insert,hv,VhostDev.fresh]
    · apply portMac_congr
      · simp [VdevList.insert,hu]
      · intro p hp
        have hlt := (hw u p hp).2
        change Function.update h.devs h.nextDev _ p=h.devs p
        rw [Function.update_of_ne (Nat.ne_of_lt hlt)]

theorem portMac_destroyFound {h : Hist} (hw : h.Wf) {v : Vid} {p : DevPtr}
    (hp : h.list.vdevs v=some p) (ok : Bool) :
    portMac F (h.destroyFound v p ok)=Function.update (portMac F h) v none := by
  funext u
  by_cases hu : u=v
  · subst hu
    rw [Function.update_self]
    simp [portMac,Hist.destroyFound,VdevList.remove]
  · rw [Function.update_of_ne hu]
    apply portMac_congr
    · simp [Hist.destroyFound,VdevList.remove,hu]
    · intro w hw'
      change Function.update h.devs p _ w=h.devs w
      rw [Function.update_of_ne]
      intro he
      subst he
      exact hu (hw.inj hw' hp)

theorem portMac_learnFound {h : Hist} (hw : h.Wf) {v : Vid} {p : DevPtr}
    (hp : h.list.vdevs v=some p) (d : Data) (ok : Bool) :
    portMac F (h.learnFound q p d ok)=Function.update (portMac F h) v
      (if srcMac d≠F.own then some (srcMac d) else none) := by
  funext u
  by_cases hu : u=v
  · subst hu
    have hdev : (h.learnFound q p d ok).devs p=(linkVmdq (h.devs p) h.route d).1 :=
      Function.update_self ..
    change (h.list.vdevs u).bind _=_
    rw [Function.update_self,hp,Option.bind_some,hdev,linkVmdq_mac,
      (linkVmdq_dev (h.devs p) h.route d).2.2]
    simp only [true_and]
  · rw [Function.update_of_ne hu]
    apply portMac_congr
    · rfl
    · intro w hw'
      change Function.update h.devs p _ w=h.devs w
      rw [Function.update_of_ne]
      intro he
      subst he
      exact hu (hw.inj hw' hp)

theorem portMac_ne_own {h : Hist} {v : Vid} {m : Mac} (hm : portMac F h v=some m) : m≠F.own := by
  obtain ⟨p,-,hp⟩ := Option.bind_eq_some_iff.mp hm
  split at hp
  · next hne =>
    obtain rfl := Option.some.inj hp
    exact hne.2
  · cases hp

theorem destroyFound_coherent (hF : F.Regular) (hw : s.hist.Wf) (hc : s.Coherent F) {v : Vid}
    {p : DevPtr} (hp : s.hist.list.vdevs v=some p) (ok : Bool) (w : ω) :
    Coherent F ⟨s.hist.destroyFound v p ok,s.tableAfter F w (.destroyDevice v ok)⟩ ↔
      ∀ m,portMac F s.hist v=some m → ∀ u,u≠v → portMac F s.hist u≠some m := by
  have hmac : portMac F s.hist v=if (s.hist.devs p).ready=.rx ∧
      (s.hist.devs p).mac≠F.own then some (s.hist.devs p).mac else none := by
    simp only [portMac,hp,Option.bind_some]
  have htable : s.tableAfter F w (.destroyDevice v ok)=if (s.hist.devs p).ready=.rx then
      F.remove s.table (s.hist.devs p).mac else s.table := by
    simp only [tableAfter,hp]
  rw [Coherent,portMac_destroyFound hw hp,htable]
  by_cases huse : (s.hist.devs p).ready=.rx ∧ (s.hist.devs p).mac≠F.own
  · rw [if_pos huse] at hmac
    rw [if_pos huse.1,Lists.release hc hmac (fun y hy => and_congr_right fun _ => hF.remove _ hy)
      (fun hgone => hF.gone _ huse.2 hgone.2),hmac]
    constructor
    · intro h m hm
      obtain rfl := Option.some.inj hm
      exact h
    · intro h
      exact h _ rfl
  · rw [if_neg huse] at hmac
    have hkeep : ∀ y,y≠F.own → (F.has (if (s.hist.devs p).ready=.rx then
        F.remove s.table (s.hist.devs p).mac else s.table) y ↔ F.has s.table y) := by
      intro y hy
      split
      · next hr =>
        apply hF.remove
        intro he
        exact huse ⟨hr,he ▸ hy⟩
      · rfl
    refine iff_of_true ?_ (fun m hm => by rw [hmac] at hm; cases hm)
    rw [← hmac,Function.update_eq_self]
    intro m
    exact (and_congr_right (hkeep m)).trans (hc m)

/-- Learning keeps the table exact if the address gets in and the old one is not left behind. -/
theorem learnFound_coherent (hF : F.Regular) (hw : s.hist.Wf) (hc : s.Coherent F) {v : Vid}
    {p : DevPtr} {d : Data} {r : List (Vid × Data)} (hq : s.hist.queue=(v,d)::r)
    (hp : s.hist.list.vdevs v=some p) (ok : Bool) (w : ω) :
    Coherent F ⟨{s.hist with queue:=r}.learnFound q p d ok,s.tableAfter F w (.learn ok)⟩ ↔
      (srcMac d≠F.own → F.has (F.add w s.table (srcMac d)) (srcMac d)) ∧
      ∀ m,portMac F s.hist v=some m → m≠srcMac d → ∃ u,u≠v ∧ portMac F s.hist u=some m := by
  have htable : s.tableAfter F w (.learn ok)=F.add w s.table (srcMac d) := by
    simp only [tableAfter,Hist.learning,hq,hp,Option.map_some]
  have hsame : ∀ y,(if srcMac d≠F.own then some (srcMac d) else none)≠some y →
      (y≠F.own ∧ F.has (F.add w s.table (srcMac d)) y ↔ y≠F.own ∧ F.has s.table y) := by
    intro y hy
    refine and_congr_right fun hown => hF.add _ _ fun he => hy ?_
    rw [← he,if_pos hown]
  have hport : portMac F {s.hist with queue:=r}=portMac F s.hist := rfl
  rw [Coherent,htable,portMac_learnFound (h:={s.hist with queue:=r}) hw hp,hport,
    Lists.assign hc hsame]
  by_cases hown : srcMac d=F.own
  · rw [if_neg (not_not.mpr hown)]
    refine and_congr (iff_of_true (fun _ hx => by cases hx) (fun hne => absurd hown hne)) ?_
    refine forall_congr' fun m => forall_congr' fun hm => imp_congr_left (iff_of_true (by simp) ?_)
    intro he
    exact portMac_ne_own hm (he.trans hown)
  · rw [if_pos hown]
    refine and_congr ?_ ?_
    · constructor
      · intro h _
        exact (h _ rfl).2
      · intro h x hx
        obtain rfl := Option.some.inj hx
        exact ⟨hown,h hown⟩
    · refine forall_congr' fun m => forall_congr' fun _ => imp_congr_left ?_
      rw [ne_eq,Option.some.injEq]
      exact ne_comm

/-- An operation that leaves the addresses in use and the table as they are. -/
theorem coherent_of_same (hc : s.Coherent F) (hu : portMac F t.hist=portMac F s.hist)
    (ht : t.table=s.table) : t.Coherent F := by
  unfold Coherent
  rw [hu,ht]
  exact hc

/-- One operation keeps the table exact if and only if it is clean. -/
theorem step_coherent (hF : F.Regular) (hw : s.hist.Wf) (hc : s.Coherent F) {a : Op × ω}
    (ht : s.step F q a=some t) : t.Coherent F ↔ s.MacClean F a := by
  obtain ⟨h,hh,rfl⟩ := Option.map_eq_some_iff.mp ht
  obtain ⟨op,w⟩ := a
  cases op with
  | newDevice v =>
    simp only [Hist.step] at hh
    split at hh
    · cases hh
    · next hl =>
      obtain rfl := Option.some.inj hh
      have hv : s.hist.list.vdevs v=none := by simpa [VdevList.live] using hl
      exact iff_of_true (coherent_of_same hc (portMac_newDevice hw hv) rfl) trivial
  | destroyDevice v b =>
    simp only [Hist.step] at hh
    split at hh
    · next hv =>
      obtain rfl := Option.some.inj hh
      refine iff_of_true (coherent_of_same hc rfl ?_) ?_
      · simp only [tableAfter,hv]
      · intro m hm
        simp [portMac,hv] at hm
    · next p hp =>
      obtain rfl := Option.some.inj hh
      exact destroyFound_coherent hF hw hc hp b w
  | issue v d =>
    simp only [Hist.step] at hh
    split at hh
    · cases hh
    · split at hh
      · obtain rfl := Option.some.inj hh
        exact iff_of_true (coherent_of_same hc rfl rfl) trivial
      · cases hh
  | learn b =>
    simp only [Hist.step] at hh
    split at hh
    · cases hh
    · next v d r hq =>
      split at hh
      · next hv =>
        obtain rfl := Option.some.inj hh
        have hl : s.hist.learning=none := by simp only [Hist.learning,hq,hv,Option.map_none]
        refine iff_of_true (coherent_of_same hc rfl ?_) ?_
        · simp only [tableAfter,hl]
        · intro u p e he
          rw [hl] at he
          cases he
      · next p hp =>
        obtain rfl := Option.some.inj hh
        have hl : s.hist.learning=some (v,p,d) := by
          simp only [Hist.learning,hq,hp,Option.map_some]
        rw [learnFound_coherent hF hw hc hq hp b w]
        simp [MacClean,hl]

end

/-- With a port that keeps to what is assumed of it: in every state of a history of connects,
learnings and disconnects it takes exactly its own address and those of the VMs that are connected
and ready, if and only if every step of the history is clean: a learned address got into the table,
the address that it replaced is still another VM's, and a VM that left was the only one with its
address. -/
theorem mac_filter_coherent_iff (hF : F.Regular) (ethRxQueues : Nat) (as : List (Op × ω)) :
    Visits (step F ethRxQueues) (Coherent F) (init F) as ↔
      Meets (step F ethRxQueues) (MacClean F) (init F) as := by
  refine visits_iff_meets (I:=fun s => s.hist.Wf) ?_ ?_ (init F) as Hist.init_wf ?_
  · intro s t a hi _ _ ht
    obtain ⟨u,hu,rfl⟩ := Option.map_eq_some_iff.mp ht
    exact Hist.step_wf hi hu
  · intro s t a hi hc ht
    exact step_coherent hF hi hc ht
  · intro m
    refine iff_of_false (fun h => h.1 (hF.start h.2)) ?_
    intro ⟨v,hv⟩
    cases hv

/-- A port with room for so many addresses besides its own. -/
def listFilter (own : Mac) (cap : Nat) : MacFilter (List Mac) Unit where
  own:=own
  start:=[]
  has:=fun table m => m=own ∨ m∈table
  add:=fun _ table m => if m=own ∨ m∈table ∨ cap ≤ table.length then table else table++[m]
  remove:=fun table m => table.filter fun y => decide (y≠m)

theorem listFilter_regular (own : Mac) (cap : Nat) : (listFilter own cap).Regular where
  start:=fun h => h.resolve_right List.not_mem_nil
  add:=fun _ t m y hy => by
    refine or_congr_right ?_
    change y∈ite _ _ _ ↔ _
    split
    · rfl
    · rw [List.mem_append,List.mem_singleton,or_iff_left hy]
  remove:=fun t m y hy => or_congr_right (by simp [listFilter,hy])
  gone:=fun t m hm h => by
    obtain rfl | h := h
    · exact hm rfl
    · simp [listFilter] at h

/-- link_vmdq does not look for the address in other devices: two VMs can have one address, and
the first of them that leaves takes it out of the table. -/
def sharedMac : List (Op × Unit) :=
  let frame := fun src => Function.update (ipv4Frame src 1) 6 2
  ([.newDevice 2,.issue 2 (frame 5),.newDevice 3,.issue 3 (frame 6),.learn true,.learn true,
    .destroyDevice 2 true] : List Op).map (·,())

theorem mac_filter_coherent_iff_sharedMac :
    (listFilter (fun _ => 1) 128).Regular ∧
    (run (step (listFilter (fun _ => 1) 128) 1) (init (listFilter (fun _ => 1) 128)) sharedMac).map
      (fun s => (s.table,(portMac (listFilter (fun _ => 1) 128) s.hist 3).isSome))=some ([],true) ∧
    (Visits (step (listFilter (fun _ => 1) 128) 1) (Coherent (listFilter (fun _ => 1) 128))
        (init (listFilter (fun _ => 1) 128)) sharedMac ↔
      Meets (step (listFilter (fun _ => 1) 128) 1) (MacClean (listFilter (fun _ => 1) 128))
        (init (listFilter (fun _ => 1) 128)) sharedMac) :=
  ⟨listFilter_regular _ _,by decide +kernel,mac_filter_coherent_iff _ (listFilter_regular _ _) 1 _⟩

end NicHist

end Umanet
