import Umanet.System.Ownership

namespace Umanet

open Framework

variable {μ : Type} {n : Node}

/-- A frame as a VM has sent it, which vhost_rx_loop has classified for an exit. -/
def FromVm (n : Node) (seen : List Seen) (e : Exit) (f : Data) : Prop :=
  ∃ r,.vhost f r∈seen ∧ exitOf n.cfg n.rss (⟨(),f,r⟩ : Polled Unit)=e

/-- A frame of the NIC with the addresses and checksums for the VM eth_rx_loop found. -/
def FromNic (n : Node) (seen : List Seen) (v : Vid) (f : Data) : Prop :=
  ∃ vmMac d r,.nic vmMac d r∈seen ∧ ethExitOf n.cfg.ip (⟨(),d,r⟩ : Polled Unit)=.vm v ∧
    f=n.rxHeader vmMac d

/-- What a VM may get: a frame some VM has sent to it, with or without the congestion mark, or
one of the NIC's. -/
def ForVm (n : Node) (seen : List Seen) (v : Vid) (f : Data) : Prop :=
  (∃ d,FromVm n seen (.vm v) d ∧ (f=d ∨ f=n.mark d)) ∨ FromNic n seen v f

/-- A frame some VM has sent out through a queue, with or without the congestion mark. -/
def ForQueue (n : Node) (seen : List Seen) (q : Fin n.cfg.ethTxQueues) (f : Data) : Prop :=
  ∃ d,FromVm n seen (.eth q) d ∧ (f=d ∨ f=n.mark d)

/-- What the NIC may get for a queue: such a frame with the headers of eth_tx_loop. -/
def OnWire (n : Node) (seen : List Seen) (q : Fin n.cfg.ethTxQueues) (f : Data) : Prop :=
  ∃ d,ForQueue n seen q d ∧ f=n.txHeader d

/-- The bytes a holder's mbufs have, where those for VM v come from packets of `view v`. A ring of
eth_tx_loop also holds frames that the NIC has refused before. -/
def Fits (n : Node) (view : Vid → List Seen) (seen : List Seen) (f : Data) : Holder n → Prop
  | .vmRing v => ForVm n (view v) v f
  | .tx _ v => ForVm n (view v) v f
  | .ethRing q => ForQueue n seen q f ∨ OnWire n seen q f
  | .ethTx _ q => OnWire n seen q f
  | .rx (.inl _) (.vm v) => FromVm n (view v) (.vm v) f
  | .rx (.inl _) (.eth q) => FromVm n seen (.eth q) f
  | .rx (.inr _) (.vm v) => FromNic n (view v) v f
  | .rx (.inr _) (.eth _) => False
  | _ => True

def Seen.exit (n : Node) : Seen → Exit
  | .vhost d r => exitOf n.cfg n.rss (⟨(),d,r⟩ : Polled Unit)
  | .nic _ d r => ethExitOf n.cfg.ip (⟨(),d,r⟩ : Polled Unit)

theorem FromVm.mono {seen seen' : List Seen} {e : Exit} {f : Data} (hs : seen⊆seen')
    (h : FromVm n seen e f) : FromVm n seen' e f := by
  obtain ⟨r,hr,he⟩ := h
  exact ⟨r,hs hr,he⟩

theorem FromNic.mono {seen seen' : List Seen} {v : Vid} {f : Data} (hs : seen⊆seen')
    (h : FromNic n seen v f) : FromNic n seen' v f := by
  obtain ⟨vmMac,d,r,hr,he⟩ := h
  exact ⟨vmMac,d,r,hs hr,he⟩

theorem ForVm.mono {seen seen' : List Seen} {v : Vid} {f : Data} (hs : seen⊆seen')
    (h : ForVm n seen v f) : ForVm n seen' v f := by
  rcases h with ⟨d,hd,hf⟩ | h
  · exact Or.inl ⟨d,hd.mono hs,hf⟩
  · exact Or.inr (h.mono hs)

theorem ForQueue.mono {seen seen' : List Seen} {q : Fin n.cfg.ethTxQueues} {f : Data}
    (hs : seen⊆seen') (h : ForQueue n seen q f) : ForQueue n seen' q f := by
  obtain ⟨d,hd,hf⟩ := h
  exact ⟨d,hd.mono hs,hf⟩

theorem OnWire.mono {seen seen' : List Seen} {q : Fin n.cfg.ethTxQueues} {f : Data}
    (hs : seen⊆seen') (h : OnWire n seen q f) : OnWire n seen' q f := by
  obtain ⟨d,hd,hf⟩ := h
  exact ⟨d,hd.mono hs,hf⟩

theorem Fits.mono {view view' : Vid → List Seen} {seen seen' : List Seen} {f : Data}
    (hv : ∀ v,view v⊆view' v) (hs : seen⊆seen') {k : Holder n} (h : Fits n view seen f k) :
    Fits n view' seen' f k := by
  cases k with
  | vmRing v => exact ForVm.mono (hv v) h
  | tx c v => exact ForVm.mono (hv v) h
  | ethRing q => exact h.imp (ForQueue.mono hs) (OnWire.mono hs)
  | ethTx c q => exact OnWire.mono hs h
  | rx c r =>
    cases c with
    | inl c =>
      cases r with
      | vm v => exact FromVm.mono (hv v) h
      | eth q => exact FromVm.mono hs h
      | msgs => trivial
    | inr c =>
      cases r with
      | vm v => exact FromNic.mono (hv v) h
      | eth q => exact h
      | msgs => trivial
  | _ => trivial

theorem OnWire.of_ring {seen : List Seen} {q : Fin n.cfg.ethTxQueues} {f : Data}
    (h : ForQueue n seen q f ∨ OnWire n seen q f) : OnWire n seen q (n.txHeader f) := by
  rcases h with h | ⟨d,hd,hf⟩
  · exact ⟨f,h,rfl⟩
  · subst hf
    exact ⟨d,hd,ethTxHeader_ethTxHeader⟩

theorem ecnLoop_length {α : Type} (mark : α → α) (step : Nat) (rr : BitVec 32) (ms : List α) :
    (ecnLoop mark step rr ms).1.length=ms.length := by
  induction ms generalizing rr with
  | nil => rfl
  | cons m ms ih => rw [ecnLoop,List.length_cons,List.length_cons,ih]

theorem ecnMarkPackets_length {α : Type} (mark : α → α) (ms : List α) (congestion : Int)
    (rr : BitVec 32) : (ecnMarkPackets mark ms congestion rr).1.length=ms.length := by
  unfold ecnMarkPackets
  split
  · rfl
  · exact ecnLoop_length ..

theorem mem_zip_map {mem : μ → Data} {ms : List μ} {x : μ × Data} (hx : x∈ms.zip (ms.map mem)) :
    x.2=mem x.1 := by
  induction ms with
  | nil => cases hx
  | cons m ms ih =>
    rw [List.map_cons,List.zip_cons_cons,List.mem_cons] at hx
    rcases hx with hx | hx
    · subst hx
      rfl
    · exact ih hx

theorem mem_zip_marked {mark : Data → Data} {ms : List μ} {mem : μ → Data} {congestion : Int}
    {rr : BitVec 32} {x : μ × Data}
    (hx : x∈ms.zip (ecnMarkPackets mark (ms.map mem) congestion rr).1) :
    x.2=mem x.1 ∨ x.2=mark (mem x.1) := by
  rw [ecnMarkPackets_picks] at hx
  generalize ecnPicks _ congestion rr=picks at hx
  induction ms generalizing picks with
  | nil => cases hx
  | cons m ms ih =>
    cases picks with
    | nil => cases hx
    | cons b picks =>
      rw [List.map_cons,List.zipWith_cons_cons,List.zip_cons_cons,List.mem_cons] at hx
      rcases hx with hx | hx
      · subst hx
        cases b with
        | false => exact Or.inl rfl
        | true => exact Or.inr rfl
      · exact ih picks hx

def DataAct.isPoll : DataAct n μ → Bool
  | .rxPoll .. => true
  | .ethPoll .. => true
  | _ => false

namespace Dataplane

def newlySeen : DataAct n μ → List Seen
  | .rxPoll _ _ _ pkts => pkts.map fun p => .vhost p.data p.route
  | .ethPoll _ _ _ pkts => pkts.map fun p => .nic p.vmMac p.data p.route
  | _ => []

variable [DecidableEq μ] {s t : Dataplane n μ} {view view' : Vid → List Seen}

/-- What a step adds to the records: VMs and the NIC get what cores or rings had for them. -/
structure Logged (s t : Dataplane n μ) (a : DataAct n μ) : Prop where
  seen : t.seen=s.seen++newlySeen a
  delivered : ∃ new,t.delivered=s.delivered++new ∧ ∀ x∈new,∃ c m,
    (m∈s.held (.tx c x.1) ∨ m∈s.held (.vmRing x.1)) ∧ x.2=s.mem m
  sent : ∃ new,t.sent=s.sent++new ∧ ∀ x∈new,∃ c m,m∈s.held (.ethTx c x.1) ∧ x.2=s.mem m

theorem exists_append_nil {α : Type} {P : α → Prop} {l k : List α} (h : l=k) :
    ∃ new,l=k++new ∧ ∀ x∈new,P x :=
  ⟨[],h.trans (List.append_nil _).symm,fun _ hx => by cases hx⟩

omit [DecidableEq μ] in
theorem Logged.sent_subset {a : DataAct n μ} (h : Logged s t a) : s.sent⊆t.sent := by
  obtain ⟨new,hnew,-⟩ := h.sent
  rw [hnew]
  exact List.subset_append_left _ _

omit [DecidableEq μ] in
theorem SameLogs.logged {a : DataAct n μ} (h : SameLogs s t) (ha : newlySeen a=[]) : Logged s t a :=
  ⟨by rw [h.seen,ha,List.append_nil],exists_append_nil h.delivered,exists_append_nil h.sent⟩

theorem step_logs {a : DataAct n μ} (hs : ∀ c,(s.tx c).Single) (h : s.step a=some t) :
    Logged s t a := by
  cases a with
  | rxPoll c vid learning pkts =>
    obtain ⟨-,hseen,hd,hsent,-⟩ := rxPoll_cases h
    exact ⟨hseen,exists_append_nil hd,exists_append_nil hsent⟩
  | ethPoll c queue snap pkts =>
    obtain ⟨-,hseen,hd,hsent,-⟩ := ethPoll_cases h
    exact ⟨hseen,exists_append_nil hd,exists_append_nil hsent⟩
  | flushEth c congestion => exact (flushEth_cases h).1.logged rfl
  | flushVm c congestion => exact (flushVm_cases h).1.logged rfl
  | flushSlow c => exact (flushSlow_cases h).1.logged rfl
  | tx c plan x =>
    obtain ⟨hseen,hsent,new,hnew,hall⟩ := vhostTx_delivered (hs c) h
    exact ⟨hseen.trans (List.append_nil _).symm,⟨new,hnew,fun y hy => ⟨c,hall y hy⟩⟩,
      exists_append_nil hsent⟩
  | txRace c start =>
    obtain ⟨-,-,⟨o,-,rfl⟩,-⟩ := txRace_cases h
    exact SameLogs.logged ⟨rfl,rfl,rfl⟩ rfl
  | again c =>
    simp only [Dataplane.step,again] at h
    split at h
    · split at h
      · cases h
      · obtain rfl := Option.some.inj h
        exact SameLogs.logged ⟨rfl,rfl,rfl⟩ rfl
    · cases h
  | dequeue c => exact (dequeue_cases h).1.logged rfl
  | txBurst c num =>
    obtain ⟨hseen,hd,-,q,pkts,hpc,-,hsent,-⟩ := txBurst_cases h
    refine ⟨hseen.trans (List.append_nil _).symm,exists_append_nil hd,_,hsent,fun x hx => ?_⟩
    obtain ⟨m,hm,rfl⟩ := List.mem_map.mp hx
    refine ⟨c,m,?_,rfl⟩
    change m∈(s.ethTx c).held q
    rw [hpc,EgressAt.held,Function.update_self]
    exact List.mem_of_mem_take hm
  | requeue c => exact (requeue_cases h).1.logged rfl
  | freeOne c => exact (freeOne_cases h).1.logged rfl
  | nicDone q => exact (nicDone_cases h).1.logged rfl
  | slowDequeue => exact (slowDequeue_cases h).1.logged rfl
  | slowNext present => exact (slowNext_cases h).1.logged rfl
  | slowEnqueue => exact (slowEnqueue_cases h).1.logged rfl
  | slowFree => exact (slowFree_cases h).1.logged rfl

/-- Every mbuf has bytes that fit its holder, and so had all that went out. -/
structure Authentic (view : Vid → List Seen) (s : Dataplane n μ) : Prop where
  fits : ∀ k,∀ m∈s.held k,Fits n view s.seen (s.mem m) k
  delivered : ∀ x∈s.delivered,ForVm n s.seen x.1 x.2
  sent : ∀ x∈s.sent,OnWire n s.seen x.1 x.2

/-- Where a step hands mbufs on, only those of the one holder need to be looked at: nobody
else's bytes change. -/
theorem Authentic.handout {p : Holder n} {left : List μ} {parts : Holder n → List μ}
    {stores : List (μ × Data)} (h : Authentic view s) (hone : ∀ m,holders s.held m ≤ 1)
    (ho : Handout s t p left parts stores) (hv : ∀ v,view v⊆view' v) (hseen : s.seen⊆t.seen)
    (hleft : ∀ m∈left,Fits n view' t.seen (t.mem m) p)
    (hparts : ∀ k,∀ m∈parts k,Fits n view' t.seen (t.mem m) k) :
    ∀ k,∀ m∈t.held k,Fits n view' t.seen (t.mem m) k := by
  intro k m hm
  rw [ho.held] at hm
  rcases List.mem_append.mp hm with hm | hm
  · by_cases hk : k=p
    · subst hk
      rw [Function.update_self] at hm
      exact hleft m hm
    · rw [Function.update_of_ne hk] at hm
      have hkeep : t.mem m=s.mem m := by
        rw [ho.mem]
        apply storeAll_of_notMem
        intro hmem
        obtain ⟨x,hx,he⟩ := List.mem_map.mp hmem
        exact hk (eq_of_holders_le (hone m) hm (he ▸ ho.keys x hx))
      rw [hkeep]
      exact (h.fits k m hm).mono hv hseen
  · exact hparts k m hm

/-- The same where no bytes are written: what is left with the holder fits as before. -/
theorem Authentic.passed {p q : Holder n} {left part : List μ} (h : Authentic view s)
    (hone : ∀ m,holders s.held m ≤ 1) (ho : Handout s t p left (give q part) [])
    (hv : ∀ v,view v⊆view' v) (hseen : s.seen⊆t.seen)
    (hq : ∀ f,Fits n view' t.seen f p → Fits n view' t.seen f q) :
    ∀ k,∀ m∈t.held k,Fits n view' t.seen (t.mem m) k := by
  have hmem : t.mem=s.mem := ho.mem
  have hin : ∀ m,m∈left ∨ m∈part → m∈s.held p := by
    intro m hm
    have hall := ho.all m
    rw [holders_give] at hall
    apply List.count_pos_iff.mp
    rcases hm with hm | hm
    · have hpos := List.count_pos_iff.mpr hm
      omega
    · have hpos := List.count_pos_iff.mpr hm
      omega
  have hfit : ∀ m,m∈left ∨ m∈part → Fits n view' t.seen (t.mem m) p := by
    intro m hm
    rw [hmem]
    exact (h.fits p m (hin m hm)).mono hv hseen
  refine h.handout hone ho hv hseen (fun m hm => hfit m (Or.inl hm)) (fun k m hm => ?_)
  obtain ⟨hk,hm'⟩ := mem_give hm
  subst hk
  exact hq _ (hfit m (Or.inr hm'))

theorem stored_row {row : List μ} {ds : List Data} (hn : row.Nodup) (hl : row.length ≤ ds.length)
    (hmem : t.mem=storeAll s.mem (row.zip ds)) {m : μ} (hm : m∈row) : (m,t.mem m)∈row.zip ds := by
  have hkeys : (row.zip ds).map Prod.fst=row := List.map_fst_zip hl
  rw [← hkeys] at hm
  obtain ⟨x,hx,he⟩ := List.mem_map.mp hm
  subst he
  have hval : t.mem x.1=x.2 := by
    rw [hmem]
    exact storeAll_of_mem (hkeys.symm ▸ hn) hx
  rw [hval]
  exact hx

theorem nodup_of_holders (hone : ∀ m,holders s.held m ≤ 1) (k : Holder n) : (s.held k).Nodup :=
  List.nodup_iff_count_le_one.mpr fun m => (count_le_holders s.held k m).trans (hone m)

/-- Packets of a VM are stored as they are and go where they belong. -/
theorem rxPoll_fits {c : Fin n.cfg.vhostRxCores} {pkts : List (Polled μ)}
    (hn : (pkts.map Polled.mbuf).Nodup)
    (hseen : t.seen=s.seen++pkts.map (fun p => .vhost p.data p.route))
    (hview : ∀ v,∀ p∈pkts,exitOf n.cfg n.rss p=.vm v → .vhost p.data p.route∈view' v)
    (hmem : t.mem=storeAll s.mem (pkts.map fun p => (p.mbuf,p.data))) (k : Holder n) (m : μ)
    (hm : m∈bucket (fun p => decide (destOf (.inl c) ((exitOf n.cfg n.rss p).row n)=k))
      Polled.mbuf pkts) : Fits n view' t.seen (t.mem m) k := by
  obtain ⟨p,hp,he⟩ := List.mem_map.mp hm
  obtain ⟨hpk,hk⟩ := List.mem_filter.mp hp
  have hk' := of_decide_eq_true hk
  subst he hk'
  have hval : t.mem p.mbuf=p.data := by
    rw [hmem]
    apply storeAll_of_mem
    · rw [List.map_map]
      exact hn
    · exact List.mem_map_of_mem hpk
  cases hexit : exitOf n.cfg n.rss p with
  | slow => trivial
  | drop => trivial
  | vm v =>
    change FromVm n (view' v) (.vm v) (t.mem p.mbuf)
    rw [hval]
    exact ⟨p.route,hview v p hpk hexit,hexit⟩
  | eth q =>
    rw [Exit.row,dif_pos (exitOf_eth_lt hexit)]
    change FromVm n t.seen (.eth q) (t.mem p.mbuf)
    rw [hval,hseen]
    exact ⟨p.route,List.mem_append_right _ (List.mem_map_of_mem hpk),hexit⟩

theorem ethPoll_fits {c : Fin n.cfg.ethRxCores} {pkts : List (NicPacket μ)}
    (hn : (pkts.map fun p => p.mbuf).Nodup)
    (hview : ∀ v,∀ p∈pkts,ethExitOf n.cfg.ip p.toPolled=.vm v →
      .nic p.vmMac p.data p.route∈view' v)
    (hmem : t.mem=storeAll s.mem (pkts.map fun p => (p.mbuf,p.stored n))) (k : Holder n) (m : μ)
    (hm : m∈bucket (fun p => decide (destOf (.inr c) ((ethExitOf n.cfg.ip p.toPolled).row n)=k))
      (fun p => p.mbuf) pkts) : Fits n view' t.seen (t.mem m) k := by
  obtain ⟨p,hp,he⟩ := List.mem_map.mp hm
  obtain ⟨hpk,hk⟩ := List.mem_filter.mp hp
  have hk' := of_decide_eq_true hk
  subst he hk'
  have hval : t.mem p.mbuf=p.stored n := by
    rw [hmem]
    apply storeAll_of_mem
    · rw [List.map_map]
      exact hn
    · exact List.mem_map_of_mem hpk
  cases hexit : ethExitOf n.cfg.ip p.toPolled with
  | slow => trivial
  | drop => trivial
  | vm v =>
    refine ⟨p.vmMac,p.data,p.route,hview v p hpk hexit,hexit,?_⟩
    rw [hval,NicPacket.stored,hexit]
  | eth q => exact absurd hexit (ethExitOf_ne_eth q)

theorem flushEth_fits {c : n.Rx} {q : Fin n.cfg.ethTxQueues} {congestion : Int} {rr : BitVec 32}
    (h : Authentic view s) (hone : ∀ m,holders s.held m ≤ 1)
    (hmem : t.mem=storeAll s.mem ((s.held (.rx c (.eth q))).zip (ecnMarkPackets n.mark
      ((s.held (.rx c (.eth q))).map s.mem) congestion rr).1)) {m : μ}
    (hm : m∈s.held (.rx c (.eth q))) : ForQueue n s.seen q (t.mem m) := by
  have hfrom := h.fits _ m hm
  cases c with
  | inl c =>
    have hl := ecnMarkPackets_length n.mark ((s.held (.rx (.inl c) (.eth q))).map s.mem)
      congestion rr
    rw [List.length_map] at hl
    have hzip := stored_row (nodup_of_holders hone _) hl.ge hmem hm
    exact ⟨s.mem m,hfrom,mem_zip_marked hzip⟩
  | inr c => exact absurd hfrom id

theorem flushVm_fits {c : n.Rx} {v : Vid} {congestion : Int} {rr : BitVec 32}
    (h : Authentic view s) (hone : ∀ m,holders s.held m ≤ 1)
    (hmem : t.mem=storeAll s.mem ((s.held (.rx c (.vm v))).zip
      (s.marked congestion rr (s.held (.rx c (.vm v))) c).1)) {m : μ}
    (hm : m∈s.held (.rx c (.vm v))) : ForVm n (view v) v (t.mem m) := by
  have hfrom := h.fits _ m hm
  have hl : (s.held (.rx c (.vm v))).length ≤
      (s.marked congestion rr (s.held (.rx c (.vm v))) c).1.length := by
    cases c with
    | inl c =>
      rw [marked,ecnMarkPackets_length,List.length_map]
    | inr c =>
      rw [marked,List.length_map]
  have hzip := stored_row (nodup_of_holders hone _) hl hmem hm
  cases c with
  | inl c => exact Or.inl ⟨s.mem m,hfrom,mem_zip_marked hzip⟩
  | inr c =>
    have hval : t.mem m=s.mem m := mem_zip_map hzip
    exact Or.inr (hval ▸ hfrom)

theorem Authentic.divided {p q r : Holder n} {k : Nat} {stores : List (μ × Data)}
    (h : Authentic view s) (hone : ∀ m,holders s.held m ≤ 1) (hv : ∀ v,view v⊆view' v)
    (hseen : s.seen⊆t.seen)
    (ho : Handout s t p [] (fun j => give q ((s.held p).take k) j++give r ((s.held p).drop k) j)
      stores) (hq : ∀ m∈s.held p,Fits n view s.seen (t.mem m) q)
    (hr : ∀ m∈s.held p,Fits n view s.seen (t.mem m) r) :
    ∀ k,∀ m∈t.held k,Fits n view' t.seen (t.mem m) k := by
  refine h.handout hone ho hv hseen (fun m hm => by cases hm) (fun j m hm => ?_)
  rcases List.mem_append.mp hm with hm | hm
  · obtain ⟨hj,hm'⟩ := mem_give hm
    subst hj
    exact (hq m (List.mem_of_mem_take hm')).mono hv hseen
  · obtain ⟨hj,hm'⟩ := mem_give hm
    subst hj
    exact (hr m (List.mem_of_mem_drop hm')).mono hv hseen

/-- eth_tx_loop rewrites what it takes and leaves the rest of the ring alone. -/
theorem dequeue_fits {c : Fin n.ethTxCores} {q : Fin n.cfg.ethTxQueues} {num : Nat}
    (h : Authentic view s) (hone : ∀ m,holders s.held m ≤ 1) (hv : ∀ v,view v⊆view' v)
    (hseen : t.seen=s.seen) (ho : Handout s t (.ethRing q) ((s.ethRing q).drop num)
      (give (.ethTx c q) ((s.ethRing q).take num))
      (((s.ethRing q).take num).map fun m => (m,n.txHeader (s.mem m)))) :
    ∀ k,∀ m∈t.held k,Fits n view' t.seen (t.mem m) k := by
  have hring : (s.ethRing q).Nodup := nodup_of_holders hone (.ethRing q)
  have hkeys : (((s.ethRing q).take num).map fun m => (m,n.txHeader (s.mem m))).map Prod.fst=
      (s.ethRing q).take num := by
    rw [List.map_map]
    exact List.map_id _
  refine h.handout hone ho hv (hseen ▸ List.Subset.refl _) (fun m hm => ?_) (fun k m hm => ?_)
  · have hsame : t.mem m=s.mem m := by
      rw [ho.mem]
      apply storeAll_of_notMem
      rw [hkeys]
      intro htake
      rw [← List.take_append_drop num (s.ethRing q),List.nodup_append] at hring
      exact hring.2.2 m htake m hm rfl
    rw [hsame,hseen]
    exact h.fits (.ethRing q) m (List.mem_of_mem_drop hm)
  · obtain ⟨hk,hm'⟩ := mem_give hm
    subst hk
    have hval : t.mem m=n.txHeader (s.mem m) := by
      rw [ho.mem]
      apply storeAll_of_mem
      · rw [hkeys]
        exact (List.take_sublist _ _).nodup hring
      · exact List.mem_map_of_mem hm'
    rw [hval,hseen]
    exact OnWire.of_ring (h.fits (.ethRing q) m (List.mem_of_mem_take hm'))

/-- A step leaves every mbuf with bytes that fit its holder while each mbuf has one. -/
theorem Authentic.fits_step {a : DataAct n μ} (h : Authentic view s)
    (hone : ∀ m,holders s.held m ≤ 1) (hs : ∀ c,(s.tx c).Single) (hg : Sole s a)
    (hv : ∀ v,view v⊆view' v) (hnew : ∀ v,∀ x∈newlySeen a,x.exit n=.vm v → x∈view' v)
    (ht : s.step a=some t) : ∀ k,∀ m∈t.held k,Fits n view' t.seen (t.mem m) k := by
  have hseen : s.seen⊆t.seen := by
    rw [(step_logs hs ht).seen]
    exact List.subset_append_left _ _
  have hquiet : t.held=s.held → t.mem=s.mem →
      ∀ k,∀ m∈t.held k,Fits n view' t.seen (t.mem m) k := by
    intro hh hm k m hmem
    rw [hm]
    exact (h.fits k m (hh ▸ hmem)).mono hv hseen
  cases a with
  | rxPoll c vid learning pkts =>
    obtain ⟨hn,hpolled,-,-,-,ho⟩ := rxPoll_cases ht
    refine h.handout hone ho hv hseen (fun m _ => trivial) (rxPoll_fits hn hpolled ?_ ho.mem)
    exact fun v p hp he => hnew v _ (List.mem_map_of_mem hp) he
  | ethPoll c queue snap pkts =>
    obtain ⟨hn,-,-,-,-,ho⟩ := ethPoll_cases ht
    refine h.handout hone ho hv hseen (fun m _ => trivial) (ethPoll_fits hn ?_ ho.mem)
    exact fun v p hp he => hnew v _ (List.mem_map_of_mem hp) he
  | flushEth c congestion =>
    obtain ⟨-,-,⟨hh,hm⟩ | ⟨q,num,rr,ho⟩⟩ := flushEth_cases ht
    · exact hquiet hh hm
    · exact h.divided hone hv hseen ho (fun m hm => Or.inl (flushEth_fits h hone ho.mem hm))
        (fun _ _ => trivial)
  | flushVm c congestion =>
    obtain ⟨-,-,⟨hh,hm⟩ | ⟨v,num,rr,ho⟩⟩ := flushVm_cases ht
    · exact hquiet hh hm
    · exact h.divided hone hv hseen ho (fun m hm => flushVm_fits h hone ho.mem hm)
        (fun _ _ => trivial)
  | flushSlow c =>
    obtain ⟨-,-,parts,hparts,ho⟩ := flushSlow_cases ht
    refine h.handout hone ho hv hseen (fun m hm => by cases hm) (fun k m hm => ?_)
    rcases hparts k m hm with hk | hk
    · subst hk
      trivial
    · subst hk
      trivial
  | tx c plan a =>
    obtain ⟨hh,hm⟩ | ⟨v,left,part,ho⟩ | ⟨v,left,part,ho⟩ := vhostTx_cases (hs c) ht
    · exact hquiet hh hm
    · exact h.passed hone ho hv hseen (fun f hf => hf)
    · exact h.passed hone ho hv hseen (fun f _ => trivial)
  | txRace c start => exact absurd hg.2 id
  | again c =>
    simp only [Dataplane.step,again] at ht
    split at ht
    · next i hpc =>
      split at ht
      · cases ht
      · have ht' := Option.some.inj ht
        subst ht'
        exact hquiet (held_ethTxHead hpc) rfl
    · cases ht
  | dequeue c =>
    obtain ⟨hl,-,⟨hh,hm⟩ | ⟨q,ho⟩⟩ := dequeue_cases ht
    · exact hquiet hh hm
    · exact dequeue_fits h hone hv hl.seen ho
  | txBurst c num =>
    obtain ⟨-,-,-,q,pkts,-,-,-,ho⟩ := txBurst_cases ht
    exact h.passed hone ho hv hseen (fun f _ => trivial)
  | requeue c =>
    obtain ⟨-,-,q,pkts,-,ho⟩ := requeue_cases ht
    exact h.passed hone ho hv hseen (fun f hf => Or.inr hf)
  | freeOne c =>
    obtain ⟨-,-,q,left,part,ho⟩ := freeOne_cases ht
    exact h.passed hone ho hv hseen (fun f _ => trivial)
  | nicDone q =>
    obtain ⟨-,-,left,part,ho⟩ := nicDone_cases ht
    exact h.passed hone ho hv hseen (fun f _ => trivial)
  | slowDequeue =>
    obtain ⟨-,-,left,part,ho⟩ := slowDequeue_cases ht
    exact h.passed hone ho hv hseen (fun f _ => trivial)
  | slowNext present =>
    obtain ⟨-,-,⟨hh,hm⟩ | ⟨left,m,ho⟩ | ⟨m,d,ho⟩⟩ := slowNext_cases ht
    · exact hquiet hh hm
    · exact h.passed hone ho hv hseen (fun f _ => trivial)
    · exact h.handout hone ho hv hseen (fun _ _ => trivial) (fun k m hm => by cases hm)
  | slowEnqueue =>
    obtain ⟨-,-,hmem,vid,m,batch,hpc,⟨-,hh⟩ | ⟨hroom,-⟩⟩ := slowEnqueue_cases ht
    · exact hquiet hh hmem
    · have hfull := hg.1
      simp only [NoReply,replyRefused,hpc,decide_eq_true_eq] at hfull
      omega
  | slowFree =>
    obtain ⟨-,-,left,part,ho⟩ := slowFree_cases ht
    exact h.passed hone ho hv hseen (fun f _ => trivial)

omit [DecidableEq μ] in
theorem Authentic.delivered_step {a : DataAct n μ} (h : Authentic view s) (hl : Logged s t a) :
    ∃ new,t.delivered=s.delivered++new ∧ ∀ x∈new,ForVm n (view x.1) x.1 x.2 := by
  obtain ⟨new,hnew,hall⟩ := hl.delivered
  refine ⟨new,hnew,fun x hx => ?_⟩
  obtain ⟨c,m,hm | hm,he⟩ := hall x hx
  · exact he ▸ h.fits _ m hm
  · exact he ▸ h.fits _ m hm

/-- Every mbuf has one owner, every vhost_tx core one burst in hand, and all frames are what they
should be. -/
structure Sound (pool : List μ) (view : Vid → List Seen) (s : Dataplane n μ) : Prop where
  owned : Owned pool s
  single : ∀ c,(s.tx c).Single
  authentic : Authentic view s
  sub : ∀ v,view v⊆s.seen

theorem sound_init (pool : List μ) (mem : μ → Data) :
    Sound pool (fun _ => []) (init n pool mem) where
  owned:=owned_init pool mem
  single:=fun _ => TxCore.init_single
  authentic:={
    fits:=fun k m hm => by
      rw [held_init] at hm
      obtain ⟨rfl,-⟩ := mem_give hm
      trivial
    delivered:=fun x hx => by cases hx
    sent:=fun x hx => by cases hx}
  sub:=fun _ => List.Subset.refl _

theorem Sound.step {pool : List μ} (hp : pool.Nodup) {a : DataAct n μ} (h : Sound pool view s)
    (hg : Sole s a) (hv : ∀ v,view v⊆view' v)
    (hnew : ∀ v,∀ x∈newlySeen a,x.exit n=.vm v → x∈view' v) (hsub : ∀ v,view' v⊆t.seen)
    (ht : s.step a=some t) : Sound pool view' t := by
  have hone : ∀ m,holders s.held m ≤ 1 := fun m =>
    (h.owned m).le.trans (List.nodup_iff_count_le_one.mp hp m)
  have hl := step_logs h.single ht
  have hseen : s.seen⊆t.seen := by
    rw [hl.seen]
    exact List.subset_append_left _ _
  obtain ⟨⟨q,left,parts,stores,ho⟩,-⟩ | ⟨k,part,-,hg',-⟩ := step_handout h.single ht
  · refine ⟨fun m => (ho.conserved m).trans (h.owned m),step_single h.single ht,
      ⟨h.authentic.fits_step hone h.single hg hv hnew ht,fun x hx => ?_,fun x hx => ?_⟩,hsub⟩
    · obtain ⟨new,hd,hall⟩ := h.authentic.delivered_step hl
      rw [hd] at hx
      obtain hx | hx := List.mem_append.mp hx
      · exact (h.authentic.delivered x hx).mono hseen
      · exact (hall x hx).mono (List.Subset.trans (h.sub x.1) hseen)
    · obtain ⟨new,hd,hall⟩ := hl.sent
      rw [hd] at hx
      obtain hx | hx := List.mem_append.mp hx
      · exact (h.authentic.sent x hx).mono hseen
      · obtain ⟨c,m,hm,he⟩ := hall x hx
        rw [he]
        exact OnWire.mono hseen (h.authentic.fits _ m hm)
  · exact absurd hg hg'

def NothingFor (s : Dataplane n μ) (v : Vid) : Prop :=
  s.vmRing v=[] ∧ (∀ c,(s.rx c).arrays.vmPkts v=[]) ∧ ∀ c,(s.tx c).line v=[]

instance (s : Dataplane n μ) (v : Vid) : Decidable (s.NothingFor v) :=
  inferInstanceAs (Decidable (_ ∧ _ ∧ _))

omit [DecidableEq μ] in
theorem Authentic.review (h : Authentic view s) (hv : ∀ v,view v⊆view' v ∨ s.NothingFor v) :
    Authentic view' s := by
  refine ⟨fun k m hm => ?_,h.delivered,h.sent⟩
  have hfit := h.fits k m hm
  cases k with
  | vmRing v =>
    obtain hsub | hnone := hv v
    · exact ForVm.mono hsub hfit
    · change m∈s.vmRing v at hm
      rw [hnone.1] at hm
      cases hm
  | tx c v =>
    obtain hsub | hnone := hv v
    · exact ForVm.mono hsub hfit
    · change m∈(s.tx c).line v at hm
      rw [hnone.2.2 c] at hm
      cases hm
  | rx c r =>
    cases r with
    | vm v =>
      obtain hsub | hnone := hv v
      · cases c with
        | inl c => exact FromVm.mono hsub hfit
        | inr c => exact FromNic.mono hsub hfit
      · change m∈(s.rx c).arrays.vmPkts v at hm
        rw [hnone.2.1 c] at hm
        cases hm
    | _ =>
      cases c with
      | inl c => exact hfit
      | inr c => exact hfit
  | _ => exact hfit

theorem delivered_of_poll {a : DataAct n μ} (ha : a.isPoll=true) (h : s.step a=some t) :
    t.delivered=s.delivered := by
  cases a with
  | rxPoll => exact (rxPoll_cases h).2.2.1
  | ethPoll => exact (ethPoll_cases h).2.2.1
  | _ => cases ha

theorem Sound.step_seen {pool : List μ} (hp : pool.Nodup) {a : DataAct n μ}
    (h : Sound pool (fun _ => s.seen) s) (hg : Sole s a) (ht : s.step a=some t) :
    Sound pool (fun _ => t.seen) t := by
  have hseen := (step_logs h.single ht).seen
  apply h.step hp hg _ _ (fun _ => List.Subset.refl _) ht
  · intro v
    rw [hseen]
    exact List.subset_append_left _ _
  · intro v x hx _
    rw [hseen]
    exact List.mem_append_right _ hx

omit [DecidableEq μ] in
theorem sole_of_poll (s : Dataplane n μ) {a : DataAct n μ} (h : a.isPoll=true) : s.Sole a := by
  cases a with
  | rxPoll => exact ⟨rfl,trivial⟩
  | ethPoll => exact ⟨rfl,trivial⟩
  | _ => cases h

/-- Over all threads and every interleaving in which no reply of process_arp_req gets into a
ring and no two vhost_tx cores dequeue from one at the same time: a VM only gets frames that a VM
or the NIC has sent and that were looked up for it, and the NIC only frames that a VM has sent out
through that queue. Nothing but the congestion mark and the headers of eth_tx_loop and eth_rx_loop is
different in them, although mbufs are freed and used again all the time. -/
theorem frames_authentic {n : Node} {pool : List μ} {mem : μ → Data} {s : Dataplane n μ}
    (hp : pool.Nodup) (h : Reaches Dataplane.step Sole (init n pool mem) s) :
    (∀ x∈s.delivered,ForVm n s.seen x.1 x.2) ∧ ∀ x∈s.sent,OnWire n s.seen x.1 x.2 := by
  have hsound : Sound pool (fun _ => s.seen) s :=
    h.invariant (I:=fun s : Dataplane n μ => Sound pool (fun _ => s.seen) s) (sound_init pool mem)
      (fun hu hg ht => hu.step_seen hp hg ht)
  exact ⟨hsound.authentic.delivered,hsound.authentic.sent⟩

/-- VM 0 sends a frame to VM 1 and one to another subnet; both arrive. -/
def relayRun : List (DataAct relayNode Nat) :=
  let one : Fin 1 := ⟨0,Nat.zero_lt_one⟩
  let two : Fin 2 := ⟨0,Nat.two_pos⟩
  let c : relayNode.Rx := .inl one
  let route : Route := Function.update initRouteTable 3 1
  let remote : Data := fun o => if o=30 then 10 else ipv4Frame 2 9 o
  [.rxPoll one 0 false [⟨7,ipv4Frame 2 3,route⟩,⟨8,remote,route⟩],.flushEth c 0,
    .flushEth c 0,.flushVm c 0,.flushVm c 0,.flushSlow c,.tx two [1] .load,
    .tx two [1] (.visit 0 0 1),.tx two [1] (.send 0 1),.dequeue one,.txBurst one 1]

theorem frames_authentic_relayRun : ∃ s : Dataplane relayNode Nat,
    Reaches Dataplane.step Sole (init relayNode [7,8] fun _ _ => 0) s ∧
    (s.delivered.length,s.sent.length)=(1,1) ∧
    (∀ x∈s.delivered,ForVm relayNode s.seen x.1 x.2) ∧
    ∀ x∈s.sent,OnWire relayNode s.seen x.1 x.2 := by
  obtain ⟨s,hs,hlen⟩ := exists_reaches_of_guardedRun relayRun
    (fun s : Dataplane relayNode Nat => (s.delivered.length,s.sent.length)) (b:=(1,1))
    (show (guardedRun Dataplane.step Sole (init relayNode [7,8] fun _ _ => 0) relayRun).map _=_
      by decide +kernel)
  exact ⟨s,hs,hlen,frames_authentic (by decide) hs⟩

end Dataplane

end Umanet
