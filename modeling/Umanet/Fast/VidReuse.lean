import Umanet.Framework.Run
import Umanet.Fast.VhostTx

namespace Umanet

open Framework

/-- A packet with the device its vid belonged to when it was routed. Devices are numbered
in the order of new_device, so a number is never used again. -/
structure Parcel (μ : Type) where
  dev : Option Nat
  mbuf : μ
  deriving DecidableEq

/-- A packet passed to rte_vhost_enqueue_burst while the vid belongs to `dev`. -/
structure Offer (μ : Type) where
  vid : Vid
  dev : Nat
  pkt : Parcel μ
  deriving DecidableEq

/-- The threads that enqueue to the vhost_tx rings: the vhost_rx and eth_rx cores and the
slow path. -/
abbrev producers (cfg : Config) : Nat := cfg.vhostRxCores+cfg.ethRxCores+1

/-- Everything kept per vid on the way to a VM, the device behind each vid, and the
history of what was routed and of the offers. -/
structure Tenancy (cfg : Config) (μ : Type) where
  created : Nat
  live : Vid → Option Nat
  plan : Fin cfg.vhostTxCores → List Vid
  staged : Fin (producers cfg) → Vid → List (Parcel μ)
  rings : Vid → List (Parcel μ)
  tx : Fin cfg.vhostTxCores → TxCore (Parcel μ)
  routed : List (Vid × Parcel μ)
  offers : List (Offer μ)

/-- `accepted` is the number of packets the ring takes. -/
inductive TenancyAct (cfg : Config) (μ : Type)
  | create (v : Vid)
  | destroy (v : Vid)
  | replan (c : Fin cfg.vhostTxCores) (plan : List Vid)
  | stage (p : Fin (producers cfg)) (v : Vid) (mbuf : μ)
  | enqueue (p : Fin (producers cfg)) (v : Vid) (accepted : Nat)
  | tx (c : Fin cfg.vhostTxCores) (a : TxAct)

variable {cfg : Config} {μ : Type}

namespace Tenancy

def init : Tenancy cfg μ :=
  ⟨0,fun _ => none,fun _ => [],fun _ _ => [],fun _ => [],fun _ => .init,[],[]⟩

/-- The offers of one step of a vhost_tx core; a vid without device gets none. -/
def offersOf (live : Vid → Option Nat) (offered : Vid → List (Parcel μ)) : List (Offer μ) :=
  (List.finRange maxVhosts).flatMap fun v =>
    match live v with
    | some d => (offered v).map fun x => ⟨v,d,x⟩
    | none => []

/-- new_device and destroy_device touch neither the ring of the vid nor any vhost_tx
context; the slow path may publish any plan at any time. -/
def step (s : Tenancy cfg μ) : TenancyAct cfg μ → Option (Tenancy cfg μ)
  | .create v =>
    if s.live v=none then some {s with
      created:=s.created+1
      live:=Function.update s.live v (some s.created)}
    else none
  | .destroy v =>
    if s.live v=none then none else some {s with live:=Function.update s.live v none}
  | .replan c l => some {s with plan:=Function.update s.plan c l}
  | .stage p v m => some {s with
      staged:=Function.update s.staged p
        (Function.update (s.staged p) v (s.staged p v++[⟨s.live v,m⟩]))
      routed:=s.routed++[(v,⟨s.live v,m⟩)]}
  | .enqueue p v n => some {s with
      staged:=Function.update s.staged p (Function.update (s.staged p) v [])
      rings:=Function.update s.rings v (s.rings v++(s.staged p v).take n)}
  | .tx c a =>
    ((s.tx c).step (s.plan c) s.rings a).map fun o => {s with
      tx:=Function.update s.tx c o.core
      rings:=o.rings
      offers:=s.offers++offersOf s.live o.offered}

def Queued (s : Tenancy cfg μ) (v : Vid) (x : Parcel μ) : Prop :=
  (∃ p,x∈s.staged p v) ∨ x∈s.rings v ∨ ∃ c,x∈(s.tx c).line v

/-- Nothing is left for vid v: not staged, not in the ring, not with any vhost_tx core. -/
def Clean (s : Tenancy cfg μ) (v : Vid) : Prop :=
  (∀ p,s.staged p v=[]) ∧ s.rings v=[] ∧ ∀ c,(s.tx c).line v=[]

instance (s : Tenancy cfg μ) (v : Vid) : Decidable (s.Clean v) :=
  inferInstanceAs (Decidable (_ ∧ _ ∧ _))

/-- A device is created only on a vid for which nothing is left. -/
def CleanReuse (s : Tenancy cfg μ) : TenancyAct cfg μ → Prop
  | .create v => s.Clean v
  | _ => True

instance (s : Tenancy cfg μ) : (a : TenancyAct cfg μ) → Decidable (s.CleanReuse a)
  | .create v => inferInstanceAs (Decidable (s.Clean v))
  | .destroy _ => isTrue trivial
  | .replan .. => isTrue trivial
  | .stage .. => isTrue trivial
  | .enqueue .. => isTrue trivial
  | .tx .. => isTrue trivial

theorem Clean.not_queued {s : Tenancy cfg μ} {v : Vid} (h : s.Clean v) (x : Parcel μ) :
    ¬s.Queued v x := by
  obtain ⟨hstaged,hring,htx⟩ := h
  rintro (⟨p,hx⟩ | hx | ⟨c,hx⟩)
  · rw [hstaged p] at hx
    exact List.not_mem_nil hx
  · rw [hring] at hx
    exact List.not_mem_nil hx
  · rw [htx c] at hx
    exact List.not_mem_nil hx

/-- While a vid belongs to a device, what is on its way there was routed to that device. -/
structure OwnTraffic (s : Tenancy cfg μ) : Prop where
  own : ∀ v d x,s.live v=some d → s.Queued v x → x.dev=some d
  routed : ∀ v x,s.Queued v x → (v,x)∈s.routed
  offers : ∀ o∈s.offers,o.pkt.dev=some o.dev ∧ (o.vid,o.pkt)∈s.routed
  single : ∀ c,(s.tx c).Single

namespace OwnTraffic

variable {s t : Tenancy cfg μ}

theorem init : OwnTraffic (init : Tenancy cfg μ) :=
  ⟨fun _ _ _ hl _ => by simp [Tenancy.init] at hl,
    fun v x hx => by
      simp [Queued,Tenancy.init,TxCore.line,TxCore.held,TxCore.init,TxSlot.init] at hx,
    fun _ ho => absurd ho List.not_mem_nil,fun _ => TxCore.init_single⟩

/-- A step that creates no device, offers nothing and moves packets of a vid only within
the vid, but for those it routes. -/
theorem of_moves (h : OwnTraffic s) (new : List (Vid × Parcel μ))
    (hq : ∀ v x,t.Queued v x → s.Queued v x ∨ x.dev=s.live v ∧ (v,x)∈new)
    (hr : t.routed=s.routed++new) (hl : t.live=s.live := by rfl)
    (ho : t.offers=s.offers := by rfl) (hs : t.tx=s.tx := by rfl) : OwnTraffic t := by
  refine ⟨fun v d x hd hx => ?_,fun v x hx => ?_,?_,by rw [hs]; exact h.single⟩
  · rw [hl] at hd
    rcases hq v x hx with hx | hx
    · exact h.own v d x hd hx
    · exact hx.1.trans hd
  · rw [hr]
    rcases hq v x hx with hx | hx
    · exact List.mem_append_left _ (h.routed v x hx)
    · exact List.mem_append_right _ hx.2
  · rw [ho,hr]
    exact fun o hm => ⟨(h.offers o hm).1,List.mem_append_left _ (h.offers o hm).2⟩

theorem create (h : OwnTraffic s) {v : Vid} (hg : s.Clean v)
    (ht : s.step (.create v)=some t) : OwnTraffic t := by
  simp only [step] at ht
  split at ht
  · have ht' := Option.some.inj ht
    subst ht'
    refine ⟨fun u d x hd hx => ?_,h.routed,h.offers,h.single⟩
    change Function.update s.live v (some s.created) u=some d at hd
    by_cases hu : u=v
    · subst hu
      exact absurd hx (hg.not_queued x)
    · rw [Function.update_of_ne hu] at hd
      exact h.own u d x hd hx
  · simp at ht

theorem destroy (h : OwnTraffic s) {v : Vid} (ht : s.step (.destroy v)=some t) :
    OwnTraffic t := by
  simp only [step] at ht
  split at ht
  · simp at ht
  · have ht' := Option.some.inj ht
    subst ht'
    refine ⟨fun u d x hd hx => ?_,h.routed,h.offers,h.single⟩
    change Function.update s.live v none u=some d at hd
    by_cases hu : u=v
    · subst hu
      simp at hd
    · rw [Function.update_of_ne hu] at hd
      exact h.own u d x hd hx

theorem stage (h : OwnTraffic s) {p : Fin (producers cfg)} {v : Vid} {m : μ}
    (ht : s.step (.stage p v m)=some t) : OwnTraffic t := by
  have ht' := Option.some.inj ht
  subst ht'
  refine h.of_moves [(v,⟨s.live v,m⟩)] (fun u x hx => ?_) rfl
  rcases hx with ⟨q,hx⟩ | hx
  · change x∈Function.update s.staged p _ q u at hx
    by_cases hq : q=p
    · subst hq
      rw [Function.update_self] at hx
      by_cases hu : u=v
      · subst hu
        rw [Function.update_self,List.mem_append,List.mem_singleton] at hx
        rcases hx with hx | rfl
        · exact Or.inl (Or.inl ⟨q,hx⟩)
        · exact Or.inr ⟨rfl,List.mem_singleton_self _⟩
      · rw [Function.update_of_ne hu] at hx
        exact Or.inl (Or.inl ⟨q,hx⟩)
    · rw [Function.update_of_ne hq] at hx
      exact Or.inl (Or.inl ⟨q,hx⟩)
  · exact Or.inl (Or.inr hx)

theorem enqueue (h : OwnTraffic s) {p : Fin (producers cfg)} {v : Vid} {n : Nat}
    (ht : s.step (.enqueue p v n)=some t) : OwnTraffic t := by
  have ht' := Option.some.inj ht
  subst ht'
  refine h.of_moves [] (fun u x hx => Or.inl ?_) (List.append_nil _).symm
  rcases hx with ⟨q,hx⟩ | hx | hx
  · change x∈Function.update s.staged p _ q u at hx
    by_cases hq : q=p
    · subst hq
      rw [Function.update_self] at hx
      by_cases hu : u=v
      · subst hu
        simp at hx
      · rw [Function.update_of_ne hu] at hx
        exact Or.inl ⟨q,hx⟩
    · rw [Function.update_of_ne hq] at hx
      exact Or.inl ⟨q,hx⟩
  · change x∈Function.update s.rings v _ u at hx
    by_cases hu : u=v
    · subst hu
      rw [Function.update_self,List.mem_append] at hx
      rcases hx with hx | hx
      · exact Or.inr (Or.inl hx)
      · exact Or.inl ⟨p,List.mem_of_mem_take hx⟩
    · rw [Function.update_of_ne hu] at hx
      exact Or.inr (Or.inl hx)
  · exact Or.inr (Or.inr hx)

theorem mem_offersOf {live : Vid → Option Nat} {offered : Vid → List (Parcel μ)} {o : Offer μ}
    (h : o∈offersOf live offered) : live o.vid=some o.dev ∧ o.pkt∈offered o.vid := by
  obtain ⟨v,-,hv⟩ := List.mem_flatMap.mp h
  split at hv
  · rename_i d hd
    obtain ⟨x,hx,rfl⟩ := List.mem_map.mp hv
    exact ⟨hd,hx⟩
  · simp at hv

/-- A vhost_tx core offers what it has for the vid, and that was routed to its device. -/
theorem tx (h : OwnTraffic s) {c : Fin cfg.vhostTxCores} {a : TxAct}
    (ht : s.step (.tx c a)=some t) : OwnTraffic t := by
  simp only [step] at ht
  obtain ⟨o,ho,rfl⟩ := Option.map_eq_some_iff.mp ht
  have hstep := TxStep.of_step (h.single c) ho
  have hback : ∀ u x,x∈o.core.line u ∨ x∈o.rings u → s.Queued u x := by
    intro u x hx
    rcases List.mem_append.mp (hstep.stays_mem (List.mem_append.mpr hx)) with hl | hr
    · exact Or.inr (Or.inr ⟨c,hl⟩)
    · exact Or.inr (Or.inl hr)
  have hqueued : ∀ u x,({s with
      tx:=Function.update s.tx c o.core
      rings:=o.rings
      offers:=s.offers++offersOf s.live o.offered} : Tenancy cfg μ).Queued u x → s.Queued u x := by
    rintro u x (hx | hx | ⟨i,hx⟩)
    · exact Or.inl hx
    · exact hback u x (Or.inr hx)
    · change x∈(Function.update s.tx c o.core i).line u at hx
      by_cases hi : i=c
      · subst hi
        rw [Function.update_self] at hx
        exact hback u x (Or.inl hx)
      · rw [Function.update_of_ne hi] at hx
        exact Or.inr (Or.inr ⟨i,hx⟩)
  refine ⟨fun u d x hd hx => h.own u d x hd (hqueued u x hx),
    fun u x hx => h.routed u x (hqueued u x hx),fun q hq => ?_,?_⟩
  · rcases List.mem_append.mp hq with hq | hq
    · exact h.offers q hq
    · obtain ⟨hlive,hoff⟩ := mem_offersOf hq
      have hline : s.Queued q.vid q.pkt := Or.inr (Or.inr ⟨c,hstep.offered q.vid q.pkt hoff⟩)
      exact ⟨h.own q.vid q.dev q.pkt hlive hline,h.routed _ _ hline⟩
  · exact (Function.forall_update_iff s.tx fun _ core => core.Single).mpr
      ⟨hstep.single,fun i _ => h.single i⟩

theorem step {a : TenancyAct cfg μ} (h : OwnTraffic s) (hg : s.CleanReuse a)
    (ht : s.step a=some t) : OwnTraffic t := by
  cases a with
  | create v => exact h.create hg ht
  | destroy v => exact h.destroy ht
  | replan c l =>
    have ht' := Option.some.inj ht
    subst ht'
    exact h.of_moves [] (fun _ _ hx => Or.inl hx) (List.append_nil _).symm
  | stage p v m => exact h.stage ht
  | enqueue p v n => exact h.enqueue ht
  | tx c a => exact h.tx ht

end OwnTraffic

/-- In every run in which each vid is clean when a device is created on it, a packet is
offered only to the device it was routed to. -/
theorem own_device_of_clean (s : Tenancy cfg μ) (h : Reaches step CleanReuse init s) :
    ∀ o∈s.offers,o.pkt.dev=some o.dev ∧ (o.vid,o.pkt)∈s.routed :=
  (h.invariant OwnTraffic.init fun hi hg ht => hi.step hg ht).offers

/-- Device 0 gets its packet before vid 3 goes to device 1. -/
def cleanTrace : List (TenancyAct smallConfig Nat) :=
  [.create 3,.replan 0 [3],.stage 0 3 10,.enqueue 0 3 1,.tx 0 .load,.tx 0 (.visit 0 0 0),
    .tx 0 (.send 0 1),.destroy 3,.create 3,.replan 1 [3],.stage 0 3 11,.enqueue 0 3 1,
    .tx 1 .load,.tx 1 (.visit 0 0 0),.tx 1 (.send 0 1)]

theorem own_device_cleanTrace :
    ∃ s : Tenancy smallConfig Nat,Reaches step CleanReuse init s ∧
      s.offers=[⟨3,0,⟨some 0,10⟩⟩,⟨3,1,⟨some 1,11⟩⟩] ∧
      ∀ o∈s.offers,o.pkt.dev=some o.dev ∧ (o.vid,o.pkt)∈s.routed := by
  have hrun : (guardedRun step CleanReuse init cleanTrace).map offers=
      some [⟨3,0,⟨some 0,10⟩⟩,⟨3,1,⟨some 1,11⟩⟩] := by decide +kernel
  obtain ⟨s,hs,hf⟩ := exists_reaches_of_guardedRun cleanTrace _ hrun
  exact ⟨s,hs,hf,own_device_of_clean s hs⟩

/-- Device 0 refuses one packet and leaves another in the ring; device 1 gets vid 3. -/
def dirtyTrace : List (TenancyAct smallConfig Nat) :=
  [.create 3,.replan 0 [3],.stage 0 3 10,.enqueue 0 3 1,.tx 0 .load,.tx 0 (.visit 0 0 0),
    .tx 0 (.send 0 (-1)),.stage 0 3 11,.enqueue 0 3 1,.replan 0 [],.destroy 3,.create 3,
    .replan 0 [3],.tx 0 .load,.tx 0 (.visit 200000 200000 1),.tx 0 .load,
    .tx 0 (.visit 200001 200001 0),.tx 0 (.send 200002 1)]

/-- Both packets routed to device 0 are offered to device 1. -/
theorem cross_tenant_offer :
    ∃ s : Tenancy smallConfig Nat,Reaches step anyStep init s ∧
      ⟨3,1,⟨some 0,10⟩⟩∈s.offers ∧ ⟨3,1,⟨some 0,11⟩⟩∈s.offers := by
  have hrun : (guardedRun step anyStep init dirtyTrace).map offers=
      some [⟨3,0,⟨some 0,10⟩⟩,⟨3,1,⟨some 0,10⟩⟩,⟨3,1,⟨some 0,11⟩⟩] := by decide +kernel
  obtain ⟨s,hs,hf⟩ := exists_reaches_of_guardedRun dirtyTrace _ hrun
  refine ⟨s,hs,?_,?_⟩
  · simp [hf]
  · simp [hf]

end Tenancy

end Umanet
