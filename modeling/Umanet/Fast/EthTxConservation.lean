import Umanet.Framework.Custody
import Umanet.Framework.Run
import Umanet.Vhost.State

namespace Umanet

open Framework

/-- Conversions of C: to int16_t, to unsigned int, to uint16_t. -/
def toInt16 (x : Nat) : Int := (BitVec.ofNat 16 x).toInt
def toU32 (x : Int) : Nat := (x%2^32).toNat
def toU16 (x : Int) : Nat := (x%2^16).toNat

theorem toU32_natCast {n : Nat} (h : n < 2^32) : toU32 (n : Int)=n := by
  rw [toU32]
  omega

theorem toU16_natCast {n : Nat} (h : n < 2^16) : toU16 (n : Int)=n := by
  rw [toU16]
  omega

theorem toInt16_of_lt {n : Nat} (h : n < 2^15) : toInt16 n=n := by
  rw [toInt16,BitVec.toInt_eq_toNat_of_lt]
  · rw [BitVec.toNat_ofNat,Nat.mod_eq_of_lt (by omega)]
  · rw [BitVec.toNat_ofNat,Nat.mod_eq_of_lt (by omega)]
    omega

variable {μ : Type}

/-- Where eth_tx_loop is: at the test of its loop over the queues, before rte_eth_tx_burst,
in network_send with the result `ret`, or in free_pkts with the array and the counter it was
called with. -/
inductive EgressPc (μ : Type)
  | head (i : Nat)
  | send (i : Nat) (pkts : List μ)
  | unsent (i : Nat) (pkts : List μ) (ret : Int)
  | free (i : Nat) (pkts : List μ) (n : Nat)

def EgressPc.held : EgressPc μ → List μ
  | .head _ => []
  | .send _ pkts => pkts
  | .unsent _ pkts ret => pkts.drop ret.toNat
  | .free _ pkts n => pkts.take n

/-- How many steps are left in the iteration at most; 0 between iterations. -/
def EgressPc.rank : EgressPc μ → Nat
  | .head _ => 0
  | .send _ _ => maxPktBurst+3
  | .unsent _ _ _ => maxPktBurst+2
  | .free _ _ n => n+1

/-- One iteration: the queue, the burst that was dequeued, and what was done with it. -/
structure EgressIter (μ : Type) where
  queue : Nat
  burst : List μ
  sent : List μ
  back : List μ
  freed : List μ
  deriving DecidableEq

/-- The mbufs of the process as an eth_tx core sees them: free ones, those of other threads,
those in `eth_tx_queue_rings` and those the NIC has taken; then the core itself, its current
iteration or the last one, and all that are over. -/
structure Egress (μ : Type) where
  pool : List μ
  others : List μ
  rings : Nat → List μ
  nic : Nat → List μ
  pc : EgressPc μ
  cur : EgressIter μ
  log : List (EgressIter μ)

/-- Where an mbuf can be. -/
inductive Spot
  | pool
  | others
  | ring (i : Nat)
  | nic (i : Nat)
  | hand
  deriving DecidableEq

/-- Steps of the loop, with the numbers the NIC and the ring return, and of everyone else. -/
inductive EgressAct (μ : Type)
  | again
  | dequeue (num : Nat)
  | burst (sent : Nat)
  | requeue (num : Nat)
  | free
  | other (p q : Spot) (m : μ)

/-- Queues of the core that starts at queue r, of `cores` cores. -/
def ownQueue (r cores i : Nat) : Bool := decide (r ≤ i ∧ (i-r)%cores=0)

theorem ownQueue_next {r cores i : Nat} (h : ownQueue r cores i=true) :
    ownQueue r cores (i+cores)=true := by
  simp only [ownQueue,decide_eq_true_eq] at h ⊢
  refine ⟨by omega,?_⟩
  rw [show i+cores-r=i-r+cores by omega,Nat.add_mod_right]
  exact h.2

/-- What the others do with an mbuf: they allocate and free it, enqueue it anywhere, and the
cores of the other queues take it from their rings and send it; the NIC frees what it has sent. -/
def Spot.passes (r cores : Nat) : Spot → Spot → Bool
  | .pool,.others => true
  | .others,.pool => true
  | .others,.ring _ => true
  | .ring i,.others => !ownQueue r cores i
  | .others,.nic i => !ownQueue r cores i
  | .nic _,.pool => true
  | _,_ => false

namespace Egress

def init (r : Nat) (pool : List μ) : Egress μ :=
  ⟨pool,[],fun _ => [],fun _ => [],.head r,⟨0,[],[],[],[]⟩,[]⟩

def places (s : Egress μ) : Spot → List μ
  | .pool => s.pool
  | .others => s.others
  | .ring i => s.rings i
  | .nic i => s.nic i
  | .hand => s.pc.held

def put (s : Egress μ) : Spot → List μ → Egress μ
  | .pool,l => {s with pool:=l}
  | .others,l => {s with others:=l}
  | .ring i,l => {s with rings:=Function.update s.rings i l}
  | .nic i,l => {s with nic:=Function.update s.nic i l}
  | .hand,_ => s

def finish (s : Egress μ) (cores i : Nat) : Egress μ :=
  {s with pc:=.head (i+cores),log:=s.log++[s.cur]}

def take (s : Egress μ) (i : Nat) (pkts : List μ) (sent : Nat) : Egress μ :=
  {s with
    nic:=Function.update s.nic i (s.nic i++pkts.take sent)
    cur:={s.cur with sent:=pkts.take sent}}

/-- The ring has taken back the first packets of those from `ret` on. -/
def putBack (s : Egress μ) (i : Nat) (pkts : List μ) (ret num : Nat) : Egress μ :=
  {s with
    rings:=Function.update s.rings i (s.rings i++(pkts.drop ret).take num)
    cur:={s.cur with back:=(pkts.drop ret).take num}}

def step [DecidableEq μ] (r cores queues : Nat) (s : Egress μ) : EgressAct μ → Option (Egress μ)
  | .again =>
    match s.pc with
    | .head i => if i < queues then none else some {s with pc:=.head r}
    | _ => none
  | .dequeue num =>
    match s.pc with
    | .head i =>
      if i < queues ∧ num ≤ maxPktBurst ∧ num ≤ (s.rings i).length then
        if 0 < num then some {s with
          rings:=Function.update s.rings i ((s.rings i).drop num)
          pc:=.send i ((s.rings i).take num)
          cur:=⟨i,(s.rings i).take num,[],[],[]⟩}
        else some {s with pc:=.head (i+cores)}
      else none
    | _ => none
  | .burst sent =>
    match s.pc with
    | .send i pkts =>
      -- rte_eth_tx_burst takes at most what it is offered, as a uint16_t
      if sent ≤ toU16 pkts.length then
        let ret := if toInt16 sent < 0 then 0 else toInt16 sent
        if toU32 ret < pkts.length then some {s.take i pkts sent with pc:=.unsent i pkts ret}
        else some ((s.take i pkts sent).finish cores i)
      else none
    | _ => none
  | .requeue num =>
    match s.pc with
    | .unsent i pkts ret =>
      if num ≤ toU32 (pkts.length-ret) then
        if toU32 num < toU32 (pkts.length-ret) then some {s.putBack i pkts ret.toNat num with
          pc:=.free i (pkts.drop (ret+num).toNat) (toU16 (pkts.length-ret-num))}
        else some ((s.putBack i pkts ret.toNat num).finish cores i)
      else none
    | _ => none
  | .free =>
    match s.pc with
    | .free i _ 0 => some (s.finish cores i)
    | .free i pkts (n+1) => pkts[n]?.map fun m => {s with
        pool:=s.pool++[m]
        pc:=.free i pkts n
        cur:={s.cur with freed:=s.cur.freed++[m]}}
    | _ => none
  | .other p q m =>
    if p.passes r cores q=true ∧ m∈s.places p then
      some ((s.put p ((s.places p).erase m)).put q (s.places q++[m]))
    else none

/-- The next step inside an iteration, when the NIC or the ring takes k packets if it can. -/
def next (s : Egress μ) (k : Nat) : EgressAct μ :=
  match s.pc with
  | .head _ => .again
  | .send _ pkts => .burst (min k pkts.length)
  | .unsent _ pkts ret => .requeue (min k (pkts.length-ret.toNat))
  | .free _ _ _ => .free

/-- The rest of an iteration, with what the NIC and the ring take. -/
def complete [DecidableEq μ] (r cores queues : Nat) : Egress μ → List Nat → Option (Egress μ)
  | s,[] => some s
  | s,k::ks =>
    if s.pc.rank=0 then some s
    else (s.step r cores queues (s.next k)).bind fun t => complete r cores queues t ks

end Egress

/-- Every mbuf of the burst was sent, put back or freed: one of the three, and once. -/
def EgressIter.Settled [DecidableEq μ] (x : EgressIter μ) : Prop :=
  ∀ m,x.sent.count m+x.back.count m+x.freed.count m=if m∈x.burst then 1 else 0

/-- How the record of an iteration and the program counter fit together. -/
def EgressPc.Fits (x : EgressIter μ) : EgressPc μ → Prop
  | .head _ => True
  | .send i pkts => x.queue=i ∧ pkts.length ≤ maxPktBurst ∧ x.sent=[] ∧ x.back=[] ∧ x.freed=[]
  | .unsent i pkts ret =>
    x.queue=i ∧ pkts.length ≤ maxPktBurst ∧ 0 ≤ ret ∧ ret ≤ pkts.length ∧ x.back=[] ∧ x.freed=[]
  | .free i pkts n => x.queue=i ∧ n ≤ pkts.length ∧ n ≤ maxPktBurst

namespace Egress

/-- The NIC, the ring and the pool get what the record of the iteration gets. -/
structure Moves (s t : Egress μ) (sent back freed : List μ) : Prop where
  cur : t.cur={s.cur with
    sent:=s.cur.sent++sent
    back:=s.cur.back++back
    freed:=s.cur.freed++freed}
  nic : t.nic=Function.update s.nic s.cur.queue (s.nic s.cur.queue++sent)
  rings : t.rings=Function.update s.rings s.cur.queue (s.rings s.cur.queue++back)
  pool : t.pool=s.pool++freed

def Recorded (s t : Egress μ) : EgressAct μ → Prop
  | .again | .other _ _ _ => t.cur=s.cur
  | .dequeue _ => ∃ i b,s.rings=Function.update t.rings i (b++t.rings i) ∧
      (t.cur=⟨i,b,[],[],[]⟩ ∨ b=[] ∧ t.cur=s.cur)
  | .burst _ => ∃ x,s.Moves t x [] []
  | .requeue _ => ∃ x,s.Moves t [] x []
  | .free => ∃ x,s.Moves t [] [] x

end Egress

def EgressPc.queue : EgressPc μ → Nat
  | .head i => i
  | .send i _ => i
  | .unsent i _ _ => i
  | .free i _ _ => i

namespace Egress

/-- The burst is, in this order, what was sent, what was put back, what the loop still has and
what was freed, the last packet first. -/
structure Inv [DecidableEq μ] (r cores : Nat) (s : Egress μ) : Prop where
  apart : Apart s.places
  own : ownQueue r cores s.pc.queue=true
  fits : s.pc.Fits s.cur
  line : s.cur.sent++s.cur.back++s.pc.held++s.cur.freed.reverse=s.cur.burst
  nodup : s.cur.burst.Nodup
  back : ∀ m∈s.cur.back,m∈s.rings s.cur.queue ∧ ownQueue r cores s.cur.queue=true
  log : ∀ x∈s.log,x.Settled
  last : ∀ i,s.pc=.head i → ∀ x∈s.log.getLast?,x=s.cur

section
variable [DecidableEq μ] {s t : Egress μ} {r cores queues : Nat}

theorem init_inv {pool : List μ} (h : pool.Nodup) : Inv r cores (init r pool) := by
  refine ⟨⟨?_,?_⟩,?_,trivial,rfl,List.nodup_nil,?_,?_,?_⟩
  · intro p
    cases p with
    | pool => exact h
    | _ => exact List.nodup_nil
  · intro p q x hp hq
    cases p <;> simp only [places,init,EgressPc.held,List.not_mem_nil] at hp
    cases q <;> simp only [places,init,EgressPc.held,List.not_mem_nil] at hq
    rfl
  · simp [ownQueue,init,EgressPc.queue]
  · intro m hm
    cases hm
  · intro x hx
    cases hx
  · intro i hi x hx
    cases hx

theorem Inv.settled (h : Inv r cores s) (hheld : s.pc.held=[]) : s.cur.Settled := by
  intro m
  have hline := h.line
  rw [hheld,List.append_nil] at hline
  have hcount := congrArg (List.count m) hline
  rw [List.count_append,List.count_append,List.count_reverse] at hcount
  rw [hcount]
  split
  · next hm => exact List.count_eq_one_of_mem h.nodup hm
  · next hm => exact List.count_eq_zero.mpr hm

theorem Inv.goto (h : Inv r cores s) {i j : Nat} (hpc : s.pc=.head i)
    (hown : ownQueue r cores j=true) : Inv r cores {s with pc:=.head j} := by
  have hplaces : {s with pc:=.head j}.places=s.places := by
    funext p
    cases p with
    | hand => simp [places,hpc,EgressPc.held]
    | _ => rfl
  have hline := h.line
  rw [hpc] at hline
  exact ⟨hplaces ▸ h.apart,hown,trivial,hline,h.nodup,h.back,h.log,fun _ _ => h.last i hpc⟩

theorem Inv.finish (h : Inv r cores s) (hheld : s.pc.held=[]) :
    Inv r cores (s.finish cores s.pc.queue) := by
  have hplaces : (s.finish cores s.pc.queue).places=s.places := by
    funext p
    cases p with
    | hand => exact hheld.symm
    | _ => rfl
  refine ⟨hplaces ▸ h.apart,ownQueue_next h.own,trivial,?_,h.nodup,h.back,?_,?_⟩
  · have hline := h.line
    rw [hheld] at hline
    exact hline
  · intro x hx
    rcases List.mem_append.mp hx with hx | hx
    · exact h.log x hx
    · rw [List.mem_singleton.mp hx]
      exact h.settled hheld
  · intro i hi x hx
    simp only [Egress.finish,List.getLast?_append,List.getLast?_singleton,Option.some_or] at hx
    exact (Option.some.inj hx).symm

omit [DecidableEq μ] in
theorem places_put {p : Spot} (hp : p≠.hand) (l : List μ) :
    (s.put p l).places=Function.update s.places p l := by
  funext x
  cases p with
  | hand => exact absurd rfl hp
  | _ => cases x <;> simp [put,places,Function.update_apply]

omit [DecidableEq μ] in
theorem put_frame (p : Spot) (l : List μ) :
    (s.put p l).pc=s.pc ∧ (s.put p l).cur=s.cur ∧ (s.put p l).log=s.log := by
  cases p <;> exact ⟨rfl,rfl,rfl⟩

theorem passes_spec {p q : Spot} (h : p.passes r cores q=true) :
    p≠.hand ∧ q≠.hand ∧ p≠q ∧ ∀ i,ownQueue r cores i=true → p≠.ring i := by
  cases p <;> cases q <;> simp [Spot.passes] at h ⊢
  intro i hi e
  rw [← e,h] at hi
  cases hi

/-- A step of the others: the loop is not concerned and its rings lose nothing. -/
theorem Inv.other (h : Inv r cores s) {p q : Spot} {m : μ} (hpass : p.passes r cores q=true)
    (hm : m∈s.places p) :
    Inv r cores ((s.put p ((s.places p).erase m)).put q (s.places q++[m])) := by
  obtain ⟨hp,hq,hpq,hring⟩ := passes_spec hpass
  have hplaces : ((s.put p ((s.places p).erase m)).put q (s.places q++[m])).places=
      Function.update (Function.update s.places p ((s.places p).erase m)) q (s.places q++[m]) := by
    rw [places_put hq,places_put hp]
  generalize ht : (s.put p ((s.places p).erase m)).put q (s.places q++[m])=t at hplaces ⊢
  have hframe : t.pc=s.pc ∧ t.cur=s.cur ∧ t.log=s.log := by
    have h₁ := put_frame (s:=s) p ((s.places p).erase m)
    have h₂ := put_frame (s:=s.put p ((s.places p).erase m)) q (s.places q++[m])
    rw [ht,h₁.1,h₁.2.1,h₁.2.2] at h₂
    exact h₂
  obtain ⟨hpc,hcur,hlog⟩ := hframe
  have hapart : Apart t.places := by
    apply h.apart.pass [m] hpq
    · rw [hplaces,Function.update_of_ne hpq,Function.update_self]
      exact List.perm_append_comm.trans (List.perm_cons_erase hm).symm
    · rw [hplaces,Function.update_self]
    · intro x hx hy
      rw [hplaces,Function.update_of_ne hy,Function.update_of_ne hx]
  refine ⟨hapart,hpc ▸ h.own,hcur ▸ hpc ▸ h.fits,hcur ▸ hpc ▸ h.line,hcur ▸ h.nodup,?_,hlog ▸ h.log,
    hlog ▸ hcur ▸ hpc ▸ h.last⟩
  rw [hcur]
  intro m' hm'
  obtain ⟨hin,hown⟩ := h.back m' hm'
  refine ⟨?_,hown⟩
  show m'∈t.places (.ring s.cur.queue)
  rw [hplaces]
  by_cases hq : .ring s.cur.queue=q
  · subst hq
    rw [Function.update_self]
    exact List.mem_append_left _ hin
  · rw [Function.update_of_ne hq,Function.update_of_ne (hring _ hown).symm]
    exact hin

/-- The loop takes a burst in hand; the packets it put back last may be among it. -/
theorem Inv.dequeued (h : Inv r cores s) {i num : Nat} (hpc : s.pc=.head i)
    (hnum : num ≤ maxPktBurst) : Inv r cores {s with
      rings:=Function.update s.rings i ((s.rings i).drop num)
      pc:=.send i ((s.rings i).take num)
      cur:=⟨i,(s.rings i).take num,[],[],[]⟩} := by
  have hown := h.own
  rw [hpc] at hown
  refine ⟨?_,hown,⟨rfl,?_,rfl,rfl,rfl⟩,?_,?_,?_,h.log,by simp⟩
  · apply h.apart.pass (p:=.ring i) (q:=.hand) ((s.rings i).take num) (by simp)
    · simp only [places,Function.update_self]
      apply List.perm_append_comm.trans
      rw [List.take_append_drop]
    · simp [places,hpc,EgressPc.held]
    · intro p hp hq
      cases p with
      | ring j =>
        have hj : j≠i := fun e => hp (congrArg Spot.ring e)
        exact Function.update_of_ne hj _ _
      | hand => exact absurd rfl hq
      | _ => rfl
  · rw [List.length_take]
    omega
  · simp [EgressPc.held]
  · exact (List.take_sublist _ _).nodup (h.apart.nodup (.ring i))
  · intro m hm
    cases hm

theorem Inv.sent (h : Inv r cores s) {i sent : Nat} {pkts : List μ} (hpc : s.pc=.send i pkts)
    (hsent : sent ≤ pkts.length) :
    Inv r cores {s.take i pkts sent with pc:=.unsent i pkts sent} := by
  have hown := h.own
  have hline := h.line
  have hfits := h.fits
  rw [hpc] at hown hline hfits
  obtain ⟨hqueue,hlen,hnone,hback,hfreed⟩ := hfits
  refine ⟨?_,hown,⟨hqueue,hlen,by omega,by omega,hback,hfreed⟩,?_,h.nodup,h.back,h.log,by simp⟩
  · apply h.apart.pass (p:=.hand) (q:=.nic i) (pkts.take sent) (by simp)
    · simp only [places,hpc,EgressPc.held,Int.toNat_natCast]
      apply List.perm_append_comm.trans
      rw [List.take_append_drop]
    · simp [places,take]
    · intro p hp hq
      cases p with
      | nic j =>
        have hj : j≠i := fun e => hq (congrArg Spot.nic e)
        exact Function.update_of_ne hj _ _
      | hand => exact absurd rfl hp
      | _ => rfl
  · rw [hnone,hback,hfreed] at hline
    simpa [EgressPc.held,take,hback,hfreed] using hline

theorem Inv.requeued (h : Inv r cores s) {i ret : Nat} {pkts : List μ} (num : Nat)
    (hpc : s.pc=.unsent i pkts ret) : Inv r cores {s.putBack i pkts ret num with
      pc:=.free i (pkts.drop (ret+num)) (pkts.length-ret-num)} := by
  have hown := h.own
  have hline := h.line
  have hfits := h.fits
  rw [hpc] at hown hline hfits
  obtain ⟨hqueue,hlen,-,hret,hback,hfreed⟩ := hfits
  have hall : (pkts.drop (ret+num)).take (pkts.length-ret-num)=(pkts.drop ret).drop num := by
    rw [List.drop_drop]
    apply List.take_of_length_le
    rw [List.length_drop]
    omega
  refine ⟨?_,hown,⟨hqueue,?_,by omega⟩,?_,h.nodup,?_,h.log,by simp⟩
  · apply h.apart.pass (p:=.hand) (q:=.ring i) ((pkts.drop ret).take num) (by simp)
    · simp only [places,hpc,EgressPc.held,Int.toNat_natCast,hall]
      apply List.perm_append_comm.trans
      rw [List.take_append_drop]
    · simp [places,putBack]
    · intro p hp hq
      cases p with
      | ring j =>
        have hj : j≠i := fun e => hq (congrArg Spot.ring e)
        exact Function.update_of_ne hj _ _
      | hand => exact absurd rfl hp
      | _ => rfl
  · rw [List.length_drop]
    omega
  · rw [hback,hfreed] at hline
    simp only [EgressPc.held,hall,putBack,hfreed]
    simpa [EgressPc.held] using hline
  · intro m hm
    show m∈Function.update s.rings i _ s.cur.queue ∧ ownQueue r cores s.cur.queue=true
    rw [hqueue,Function.update_self]
    exact ⟨List.mem_append_right _ hm,hown⟩

theorem Inv.freed (h : Inv r cores s) {i n : Nat} {pkts : List μ} {m : μ}
    (hpc : s.pc=.free i pkts (n+1)) (hm : pkts[n]?=some m) : Inv r cores {s with
      pool:=s.pool++[m]
      pc:=.free i pkts n
      cur:={s.cur with freed:=s.cur.freed++[m]}} := by
  have hown := h.own
  have hline := h.line
  have hfits := h.fits
  rw [hpc] at hown hline hfits
  obtain ⟨hqueue,hn,hlen⟩ := hfits
  have hlast : pkts.take (n+1)=pkts.take n++[m] := by
    rw [List.take_add_one,hm]
    rfl
  refine ⟨?_,hown,⟨hqueue,by omega,by omega⟩,?_,h.nodup,h.back,h.log,by simp⟩
  · apply h.apart.pass (p:=.hand) (q:=.pool) [m] (by simp)
    · simp only [places,hpc,EgressPc.held,hlast]
      exact List.Perm.refl _
    · simp [places]
    · intro p hp hq
      cases p with
      | pool => exact absurd rfl hq
      | hand => exact absurd rfl hp
      | _ => rfl
  · rw [EgressPc.held,hlast] at hline
    simpa [EgressPc.held] using hline

/-- With at most MAX_PKT_BURST packets no conversion changes a number. -/
theorem step_burst {i sent : Nat} {pkts : List μ} (hpc : s.pc=.send i pkts)
    (hlen : pkts.length ≤ maxPktBurst) :
    s.step r cores queues (.burst sent)=
      if sent ≤ pkts.length then
        if sent < pkts.length then some {s.take i pkts sent with pc:=.unsent i pkts sent}
        else some ((s.take i pkts sent).finish cores i)
      else none := by
  have hmax : maxPktBurst=64 := rfl
  simp only [step,hpc]
  rw [toU16_natCast (by omega)]
  by_cases hsent : sent ≤ pkts.length
  · have hret : (if toInt16 sent < 0 then 0 else toInt16 sent)=(sent : Int) := by
      rw [toInt16_of_lt (by omega)]
      exact if_neg (by omega)
    rw [if_pos hsent,if_pos hsent,hret,toU32_natCast (by omega)]
  · rw [if_neg hsent,if_neg hsent]

theorem step_requeue {i ret num : Nat} {pkts : List μ} (hpc : s.pc=.unsent i pkts ret)
    (hlen : pkts.length ≤ maxPktBurst) (hret : ret ≤ pkts.length) :
    s.step r cores queues (.requeue num)=
      if num ≤ pkts.length-ret then
        if num < pkts.length-ret then some {s.putBack i pkts ret num with
          pc:=.free i (pkts.drop (ret+num)) (pkts.length-ret-num)}
        else some ((s.putBack i pkts ret num).finish cores i)
      else none := by
  have hmax : maxPktBurst=64 := rfl
  simp only [step,hpc]
  rw [← Int.ofNat_sub hret,toU32_natCast (by omega)]
  by_cases hnum : num ≤ pkts.length-ret
  · rw [if_pos hnum,if_pos hnum,← Int.ofNat_sub hnum,← Int.natCast_add,toU32_natCast (by omega),
      toU16_natCast (by omega)]
    rfl
  · rw [if_neg hnum,if_neg hnum]

theorem Inv.send_length (h : Inv r cores s) {i : Nat} {pkts : List μ} (hpc : s.pc=.send i pkts) :
    pkts.length ≤ maxPktBurst := by
  have hfits := h.fits
  rw [hpc] at hfits
  exact hfits.2.1

/-- What rte_eth_tx_burst returned is a number of packets of the burst. -/
theorem Inv.unsent_ret (h : Inv r cores s) {i : Nat} {pkts : List μ} {ret : Int}
    (hpc : s.pc=.unsent i pkts ret) :
    pkts.length ≤ maxPktBurst ∧ ∃ k : Nat,ret=k ∧ k ≤ pkts.length := by
  have hfits := h.fits
  rw [hpc] at hfits
  obtain ⟨-,hlen,hpos,hle,-⟩ := hfits
  obtain ⟨k,rfl⟩ := Int.eq_ofNat_of_zero_le hpos
  exact ⟨hlen,k,rfl,by omega⟩

theorem Inv.burst_step (h : Inv r cores s) {i sent : Nat} {pkts : List μ}
    (hpc : s.pc=.send i pkts) (ht : s.step r cores queues (.burst sent)=some t) :
    Inv r cores t := by
  rw [step_burst hpc (h.send_length hpc)] at ht
  split at ht
  · next hsent =>
    have hinv := h.sent hpc hsent
    split at ht
    · have ht' := Option.some.inj ht
      subst ht'
      exact hinv
    · have ht' := Option.some.inj ht
      subst ht'
      exact hinv.finish (List.drop_of_length_le (by simp; omega))
  · cases ht

theorem Inv.requeue_step (h : Inv r cores s) {i num : Nat} {pkts : List μ} {ret : Int}
    (hpc : s.pc=.unsent i pkts ret) (ht : s.step r cores queues (.requeue num)=some t) :
    Inv r cores t := by
  obtain ⟨hlen,ret,rfl,hret⟩ := h.unsent_ret hpc
  rw [step_requeue hpc hlen hret] at ht
  split at ht
  · have hinv := h.requeued num hpc
    split at ht
    · have ht' := Option.some.inj ht
      subst ht'
      exact hinv
    · have ht' := Option.some.inj ht
      subst ht'
      apply hinv.finish
      show List.take (pkts.length-ret-num) _=[]
      rw [Nat.sub_eq_zero_of_le (by omega),List.take_zero]
  · cases ht

theorem Inv.free_step (h : Inv r cores s) {i n : Nat} {pkts : List μ}
    (hpc : s.pc=.free i pkts n) (ht : s.step r cores queues .free=some t) : Inv r cores t := by
  cases n with
  | zero =>
    simp only [step,hpc] at ht
    have ht' := Option.some.inj ht
    subst ht'
    have hinv := h.finish (by rw [hpc,EgressPc.held,List.take_zero])
    rw [hpc] at hinv
    exact hinv
  | succ n =>
    simp only [step,hpc] at ht
    obtain ⟨m,hm,ht'⟩ := Option.map_eq_some_iff.mp ht
    subst ht'
    exact h.freed hpc hm

theorem step_inv {a : EgressAct μ} (h : Inv r cores s) (ht : s.step r cores queues a=some t) :
    Inv r cores t := by
  cases a with
  | again =>
    simp only [step] at ht
    split at ht
    · next i hpc =>
      split at ht
      · cases ht
      · have ht' := Option.some.inj ht
        subst ht'
        exact h.goto hpc (by simp [ownQueue])
    · cases ht
  | dequeue num =>
    simp only [step] at ht
    split at ht
    · next i hpc =>
      split at ht
      · next hnum =>
        split at ht
        · have ht' := Option.some.inj ht
          subst ht'
          exact h.dequeued hpc hnum.2.1
        · have ht' := Option.some.inj ht
          subst ht'
          have hown := h.own
          rw [hpc] at hown
          exact h.goto hpc (ownQueue_next hown)
      · cases ht
    · cases ht
  | burst sent =>
    cases hpc : s.pc with
    | send i pkts => exact h.burst_step hpc ht
    | _ => simp [step,hpc] at ht
  | requeue num =>
    cases hpc : s.pc with
    | unsent i pkts ret => exact h.requeue_step hpc ht
    | _ => simp [step,hpc] at ht
  | free =>
    cases hpc : s.pc with
    | free i pkts n => exact h.free_step hpc ht
    | _ => simp [step,hpc] at ht
  | other p q m =>
    simp only [step] at ht
    split at ht
    · next hm =>
      have ht' := Option.some.inj ht
      subst ht'
      exact h.other hm.1 hm.2
    · cases ht

omit [DecidableEq μ] in
theorem moves_take {i : Nat} {pkts : List μ} (hpc : s.pc=.send i pkts)
    (hfits : s.pc.Fits s.cur) (sent : Nat) :
    s.Moves (s.take i pkts sent) (pkts.take sent) [] [] := by
  rw [hpc] at hfits
  obtain ⟨hqueue,-,hsent,hback,hfreed⟩ := hfits
  refine ⟨?_,by rw [hqueue]; rfl,?_,(List.append_nil _).symm⟩
  · simp [take,hsent]
  · rw [List.append_nil,Function.update_eq_self]
    rfl

omit [DecidableEq μ] in
theorem moves_putBack {i : Nat} {pkts : List μ} {k : Int} (hpc : s.pc=.unsent i pkts k)
    (hfits : s.pc.Fits s.cur) (ret num : Nat) :
    s.Moves (s.putBack i pkts ret num) [] ((pkts.drop ret).take num) [] := by
  rw [hpc] at hfits
  obtain ⟨hqueue,-,-,-,hback,hfreed⟩ := hfits
  refine ⟨?_,?_,by rw [hqueue]; rfl,(List.append_nil _).symm⟩
  · simp [putBack,hback]
  · rw [List.append_nil,Function.update_eq_self]
    rfl

omit [DecidableEq μ] in
theorem moves_free (m : List μ) (pc : EgressPc μ) : s.Moves {s with
    pool:=s.pool++m
    pc:=pc
    cur:={s.cur with freed:=s.cur.freed++m}} [] [] m := by
  refine ⟨?_,?_,?_,rfl⟩
  · simp
  · rw [List.append_nil,Function.update_eq_self]
  · rw [List.append_nil,Function.update_eq_self]

omit [DecidableEq μ] in
theorem Moves.goto {x y z : List μ} (h : s.Moves t x y z) (pc : EgressPc μ)
    (log : List (EgressIter μ)) : s.Moves {t with pc:=pc,log:=log} x y z :=
  ⟨h.cur,h.nic,h.rings,h.pool⟩

theorem Inv.burst_recorded (h : Inv r cores s) {i sent : Nat} {pkts : List μ}
    (hpc : s.pc=.send i pkts) (ht : s.step r cores queues (.burst sent)=some t) :
    s.Recorded t (.burst sent) ∧ (t.log=s.log ∨ t.log=s.log++[t.cur]) := by
  have hmoves := moves_take hpc h.fits sent
  rw [step_burst hpc (h.send_length hpc)] at ht
  split at ht
  · split at ht <;> obtain rfl := Option.some.inj ht
    · exact ⟨⟨_,hmoves.goto _ s.log⟩,.inl rfl⟩
    · exact ⟨⟨_,hmoves.goto _ _⟩,.inr rfl⟩
  · cases ht

theorem Inv.requeue_recorded (h : Inv r cores s) {i num : Nat} {pkts : List μ} {ret : Int}
    (hpc : s.pc=.unsent i pkts ret) (ht : s.step r cores queues (.requeue num)=some t) :
    s.Recorded t (.requeue num) ∧ (t.log=s.log ∨ t.log=s.log++[t.cur]) := by
  obtain ⟨hlen,ret,rfl,hret⟩ := h.unsent_ret hpc
  have hmoves := moves_putBack hpc h.fits ret num
  rw [step_requeue hpc hlen hret] at ht
  split at ht
  · split at ht <;> obtain rfl := Option.some.inj ht
    · exact ⟨⟨_,hmoves.goto _ s.log⟩,.inl rfl⟩
    · exact ⟨⟨_,hmoves.goto _ _⟩,.inr rfl⟩
  · cases ht

theorem free_recorded {i n : Nat} {pkts : List μ} (hpc : s.pc=.free i pkts n)
    (ht : s.step r cores queues .free=some t) :
    s.Recorded t .free ∧ (t.log=s.log ∨ t.log=s.log++[t.cur]) := by
  cases n with
  | zero =>
    simp only [step,hpc] at ht
    obtain rfl := Option.some.inj ht
    have hnone := (moves_free (s:=s) [] s.pc).goto (.head (i+cores)) (s.log++[s.cur])
    rw [List.append_nil,List.append_nil] at hnone
    exact ⟨⟨[],hnone⟩,.inr rfl⟩
  | succ n =>
    simp only [step,hpc] at ht
    obtain ⟨m,-,rfl⟩ := Option.map_eq_some_iff.mp ht
    exact ⟨⟨[m],moves_free [m] _⟩,.inl rfl⟩

/-- What the record of an iteration says has happened, and it goes into the log as it is. -/
theorem step_recorded {a : EgressAct μ} (h : Inv r cores s) (ht : s.step r cores queues a=some t) :
    s.Recorded t a ∧ (t.log=s.log ∨ t.log=s.log++[t.cur]) := by
  cases a with
  | again =>
    simp only [step] at ht
    split at ht
    · split at ht
      · cases ht
      · obtain rfl := Option.some.inj ht
        exact ⟨rfl,.inl rfl⟩
    · cases ht
  | dequeue num =>
    simp only [step] at ht
    split at ht
    · next i hpc =>
      split at ht
      · split at ht <;> obtain rfl := Option.some.inj ht
        · refine ⟨⟨i,_,?_,.inl rfl⟩,.inl rfl⟩
          simp
        · refine ⟨⟨i,[],?_,.inr ⟨rfl,rfl⟩⟩,.inl rfl⟩
          rw [List.nil_append,Function.update_eq_self]
      · cases ht
    · cases ht
  | burst sent =>
    cases hpc : s.pc with
    | send i pkts => exact h.burst_recorded hpc ht
    | _ => simp [step,hpc] at ht
  | requeue num =>
    cases hpc : s.pc with
    | unsent i pkts ret => exact h.requeue_recorded hpc ht
    | _ => simp [step,hpc] at ht
  | free =>
    cases hpc : s.pc with
    | free i pkts n => exact free_recorded hpc ht
    | _ => simp [step,hpc] at ht
  | other p q m =>
    simp only [step] at ht
    split at ht
    · obtain rfl := Option.some.inj ht
      have h₁ := put_frame (s:=s) p ((s.places p).erase m)
      have h₂ := put_frame (s:=s.put p ((s.places p).erase m)) q (s.places q++[m])
      exact ⟨h₂.2.1.trans h₁.2.1,.inl (h₂.2.2.trans h₁.2.2)⟩
    · cases ht

omit [DecidableEq μ] in
@[simp] theorem rank_finish (i : Nat) : (s.finish cores i).pc.rank=0 := rfl

/-- Inside an iteration the loop is never stuck, however few packets are taken. -/
theorem Inv.progress (h : Inv r cores s) (queues : Nat) (hpc : s.pc.rank≠0) (k : Nat) :
    ∃ t,s.step r cores queues (s.next k)=some t ∧ t.pc.rank < s.pc.rank := by
  cases hs : s.pc with
  | head i =>
    rw [hs] at hpc
    exact absurd rfl hpc
  | send i pkts =>
    rw [next,hs,step_burst hs (h.send_length hs),if_pos (Nat.min_le_right _ _)]
    split
    · exact ⟨_,rfl,by simp [EgressPc.rank]⟩
    · exact ⟨_,rfl,by rw [rank_finish]; exact Nat.succ_pos _⟩
  | unsent i pkts ret =>
    obtain ⟨hlen,ret,rfl,hret⟩ := h.unsent_ret hs
    have hmin : min k (pkts.length-ret) ≤ pkts.length-ret := Nat.min_le_right _ _
    simp only [next,hs,Int.toNat_natCast]
    rw [step_requeue hs hlen hret,if_pos hmin]
    split
    · refine ⟨_,rfl,?_⟩
      simp only [EgressPc.rank]
      omega
    · exact ⟨_,rfl,by rw [rank_finish]; exact Nat.succ_pos _⟩
  | free i pkts n =>
    have hfits := h.fits
    rw [hs] at hfits
    rw [next,hs]
    cases n with
    | zero =>
      refine ⟨s.finish cores i,?_,?_⟩
      · simp only [step,hs]
      · rw [rank_finish]
        exact Nat.succ_pos _
    | succ n =>
      have hn : n < pkts.length := hfits.2.1
      simp only [step,hs,List.getElem?_eq_getElem hn,Option.map_some]
      exact ⟨_,rfl,by simp [EgressPc.rank]⟩

theorem Inv.completes (h : Inv r cores s) (ks : List Nat) (hks : s.pc.rank ≤ ks.length) :
    ∃ t,s.complete r cores queues ks=some t ∧ t.pc.rank=0 := by
  induction ks generalizing s with
  | nil => exact ⟨s,rfl,Nat.le_zero.mp hks⟩
  | cons k ks ih =>
    rw [complete]
    split
    · next hz => exact ⟨s,rfl,hz⟩
    · next hz =>
      obtain ⟨t,ht,hlt⟩ := h.progress queues hz k
      rw [ht]
      rw [List.length_cons] at hks
      exact ih (step_inv h ht) (by omega)

/-- The mbuf free_pkts is about to free is in the hand of the loop, and so nowhere else. -/
theorem Inv.free_spec (h : Inv r cores s) {i n : Nat} {pkts : List μ}
    (hpc : s.pc=.free i pkts (n+1)) :
    ∃ m,pkts[n]?=some m ∧ ∀ p,m∈s.places p → p=.hand := by
  have hfits := h.fits
  rw [hpc] at hfits
  have hn : n < pkts.length := hfits.2.1
  refine ⟨pkts[n],List.getElem?_eq_getElem hn,?_⟩
  intro p hp
  have hheld : pkts[n]∈s.places .hand := by
    simp only [places,hpc,EgressPc.held]
    exact List.mem_take_iff_getElem.mpr ⟨n,by omega,rfl⟩
  exact h.apart.one hp hheld

end

section
variable [DecidableEq μ]

/-- In every run of the loop, with any steps of the others in between: the mbufs of a finished
iteration were sent, put back or freed, each once, and a step that records some of them hands
just these to the NIC, the ring or the pool; when the iteration ends those put back are once in
its ring; what is freed is in no ring, was not taken by the NIC and is not free already; and an
iteration does end, whatever the NIC and the ring take. -/
theorem egress_conserved (r cores queues : Nat) {pool : List μ} (hpool : pool.Nodup)
    {s : Egress μ} (h : Reaches (step r cores queues) anyStep (init r pool) s) :
    (∀ x∈s.log,x.Settled) ∧
    (∀ a t,s.step r cores queues a=some t →
      s.Recorded t a ∧ (t.log=s.log ∨ t.log=s.log++[t.cur])) ∧
    (∀ i,s.pc=.head i → ∀ x∈s.log.getLast?,∀ m∈x.back,(s.rings x.queue).count m=1) ∧
    (∀ i pkts n,s.pc=.free i pkts (n+1) → ∃ m,pkts[n]?=some m ∧
      (∀ j,m∉s.rings j) ∧ (∀ j,m∉s.nic j) ∧ m∉s.pool ∧ m∉s.others) ∧
    ∀ ks : List Nat,s.pc.rank ≤ ks.length →
      ∃ t,s.complete r cores queues ks=some t ∧ ∃ i,t.pc=.head i := by
  have hinv : Inv r cores s := h.invariant (init_inv hpool) fun hi _ ht => step_inv hi ht
  refine ⟨hinv.log,fun _ _ ht => step_recorded hinv ht,?_,?_,?_⟩
  · intro i hpc x hx m hm
    rw [hinv.last i hpc x hx] at hm ⊢
    exact List.count_eq_one_of_mem (hinv.apart.nodup (.ring _)) (hinv.back m hm).1
  · intro i pkts n hpc
    obtain ⟨m,hm,honly⟩ := hinv.free_spec hpc
    refine ⟨m,hm,?_,?_,?_,?_⟩
    · intro j hj
      cases honly (.ring j) hj
    · intro j hj
      cases honly (.nic j) hj
    · intro hj
      cases honly .pool hj
    · intro hj
      cases honly .others hj
  · intro ks hks
    obtain ⟨t,ht,hrank⟩ := hinv.completes ks hks
    refine ⟨t,ht,?_⟩
    cases hpc : t.pc with
    | head i => exact ⟨i,rfl⟩
    | _ =>
      rw [hpc] at hrank
      cases hrank

end

/-- Of four packets the NIC takes one; another thread fills a slot of the ring, which takes one
back, and two are freed. -/
def crowdedRun : List (EgressAct Nat) :=
  ([1,2,3,4].flatMap fun m => [.other .pool .others m,.other .others (.ring 0) m])++
    [.dequeue 4,.other .pool .others 5,.burst 1,.other .others (.ring 0) 5,.requeue 1,.free,.free,
      .free]

theorem egress_conserved_crowdedRun : ∃ s : Egress Nat,
    Reaches (step 0 2 3) anyStep (init 0 [1,2,3,4,5]) s ∧
    s.log=[⟨0,[1,2,3,4],[1],[2],[4,3]⟩] ∧ s.rings 0=[5,2] ∧ ∀ x∈s.log,x.Settled := by
  have hrun : (guardedRun (step 0 2 3) anyStep (init 0 [1,2,3,4,5]) crowdedRun).map
      (fun s => (s.log,s.rings 0))=some ([⟨0,[1,2,3,4],[1],[2],[4,3]⟩],[5,2]) := by decide +kernel
  obtain ⟨s,hs,hf⟩ := exists_reaches_of_guardedRun crowdedRun _ hrun
  obtain ⟨hlog,hring⟩ := Prod.mk.inj hf
  exact ⟨s,hs,hlog,hring,(egress_conserved 0 2 3 (by decide) hs).1⟩

end Egress

end Umanet
