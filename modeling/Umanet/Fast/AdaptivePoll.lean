import Umanet.Vhost.Plan

namespace Umanet

/-- `enum rx_state` -/
inductive RxState
  | hot
  | warm
  | cool
  | cold
  | frozen
  deriving DecidableEq

def rxBackoff : Nat := 100000
def lowPktBurst : Int := maxPktBurst/4

/-- `struct vhost_ap`: the score is an int8, the time a uint64. -/
structure VhostAp where
  state : RxState
  idleScore : Int
  blockedUntilTsc : Nat

def toInt8 (x : Int) : Int := x.bmod (2^8)

/-- The score that update_rx_state stores. -/
def nextScore (score pollNum : Int) : Int :=
  toInt8 (min 32 (toInt8 (max (-8) (if pollNum>lowPktBurst then toInt8 (score-4)
    else toInt8 (score+1)))))

/-- The branches of update_rx_state. -/
def rxStateOf (score : Int) : RxState :=
  if score ≤ 0 then .hot
  else if score ≤ 4 then .warm
  else if score ≤ 8 then .cool
  else if score ≤ 16 then .cold
  else .frozen

/-- The device after update_rx_state; `tsc` is what rte_rdtsc returns in it. The counter of
`poll_states` that goes up is that of the new state. -/
def updateRxState (ap : VhostAp) (pollNum : Int) (tsc : Nat) : VhostAp :=
  let score := nextScore ap.idleScore pollNum
  ⟨rxStateOf score,score,
    if rxStateOf score=.frozen then (tsc+rxBackoff)%2^64 else ap.blockedUntilTsc⟩

/-- The switch of vhost_rx_loop; none is `continue`. A frozen device whose time has come is
thawed. -/
def passSwitch (counter now : Nat) (ap : VhostAp) : Option VhostAp :=
  match ap.state with
  | .hot => some ap
  | .warm => if counter &&& 3≠0 then none else some ap
  | .cool => if counter &&& 7≠0 then none else some ap
  | .cold => if counter &&& 15≠0 then none else some ap
  | .frozen =>
    if now < ap.blockedUntilTsc then none else some {ap with state:=.cool,idleScore:=8}

/-- What vhost_rx_loop gets at an entry of its plan: the clock in the switch, the result of
vhost_poll, and the clock in update_rx_state. -/
structure Look where
  now : Nat
  pollNum : Int
  tsc : Nat

/-- The polling state of a core, `iteration_counter` a uint64; with the results of all polls of
a vid, latest first, which the code does not keep. -/
structure RxLoop where
  counter : Nat
  ap : Vid → VhostAp
  pollStates : RxState → Nat
  polls : Vid → List Int

/-- An iteration begins, or comes to an entry of the plan with the list it has loaded. -/
inductive RxStep
  | tick
  | entry (L : VdevList) (v : Vid) (x : Look)

/-- An iteration of vhost_rx_loop: what it loads, and what it gets at each entry. -/
structure Iteration where
  plan : VhostPlan
  list : Option VdevList
  looks : Nat → Look

def Iteration.steps (it : Iteration) : List RxStep :=
  .tick::match it.list with
    | none => []
    | some L => it.plan.entries.zipIdx.map fun e => .entry L e.1 (it.looks e.2)

def Iteration.Serves (it : Iteration) (v : Vid) : Prop :=
  v∈it.plan.entries ∧ ∃ L,it.list=some L ∧ L.live v=true

namespace RxLoop

/-- As init_dataplane_ctxs leaves it. -/
def init : RxLoop := ⟨0,fun _ => ⟨.hot,0,0⟩,fun _ => 0,fun _ => []⟩

/-- vhost_poll and update_rx_state, for a device that has got past the switch. -/
def poll (s : RxLoop) (v : Vid) (ap : VhostAp) (x : Look) : RxLoop :=
  let ap' := updateRxState ap x.pollNum x.tsc
  {s with
    ap:=Function.update s.ap v ap'
    pollStates:=Function.update s.pollStates ap'.state ((s.pollStates ap'.state+1)%2^32)
    polls:=Function.update s.polls v (x.pollNum::s.polls v)}

def step (s : RxLoop) : RxStep → RxLoop
  | .tick => {s with counter:=(s.counter+1)%2^64}
  | .entry L v x =>
    if L.live v then
      match passSwitch s.counter x.now (s.ap v) with
      | none => s
      | some ap => s.poll v ap x
    else s

def run (s : RxLoop) (l : List RxStep) : RxLoop := l.foldl step s

def vhostRxIterations (s : RxLoop) (its : List Iteration) : RxLoop :=
  s.run (its.flatMap Iteration.steps)

end RxLoop

/-- No reading of the clock for v in this iteration has reached a time. -/
def Iteration.Early (it : Iteration) (v : Vid) (time : Nat) : Prop :=
  ∀ k,it.plan.entries[k]?=some v → (it.looks k).now < time

/-- A reading of the clock for v in this iteration has reached it. -/
def Iteration.Due (it : Iteration) (v : Vid) (time : Nat) : Prop :=
  ∃ k,it.plan.entries[k]?=some v ∧ time ≤ (it.looks k).now

theorem toInt8_eq {x : Int} (hlo : -128 ≤ x) (hhi : x ≤ 127) : toInt8 x=x := by
  apply Int.bmod_eq_of_le
  · exact hlo
  · show x < (2^8+1)/2
    omega

theorem toInt8_clamp {y : Int} (hlo : -128 ≤ y) (hhi : y ≤ 127) :
    toInt8 (min 32 (toInt8 (max (-8) (toInt8 y))))=min 32 (max (-8) y) := by
  rw [toInt8_eq (x:=y) hlo hhi,toInt8_eq (x:=max (-8) y) (by omega) (by omega)]
  exact toInt8_eq (by omega) (by omega)

/-- From a score that is not frozen nothing overflows, and the upper clamp does not matter. -/
theorem nextScore_eq {x n : Int} (hlo : -8 ≤ x) (hhi : x ≤ 16) :
    nextScore x n=if n>lowPktBurst then max (-8) (x-4) else x+1 := by
  unfold nextScore
  split
  · rw [toInt8_clamp (by omega) (by omega)]
    omega
  · rw [toInt8_clamp (by omega) (by omega)]
    omega

theorem rxStateOf_frozen {x : Int} : rxStateOf x=.frozen ↔ 16 < x := by
  unfold rxStateOf
  split_ifs with h0 h4 h8 h16
  · exact iff_of_false nofun (by omega)
  · exact iff_of_false nofun (by omega)
  · exact iff_of_false nofun (by omega)
  · exact iff_of_false nofun (by omega)
  · exact iff_of_true rfl (by omega)

/-- What holds for a device between two looks at it: the score is in its range, the state is that
of the score, and each of the last polls that found many packets has taken 4 off the score. -/
structure Polling (ap : VhostAp) (polls : List Int) : Prop where
  lo : -8 ≤ ap.idleScore
  hi : ap.idleScore ≤ 17
  bucket : ap.state=rxStateOf ap.idleScore
  streak : ∀ k,0 < k → k ≤ 4 → k ≤ polls.length → (∀ n∈polls.take k,lowPktBurst < n) →
    ap.idleScore ≤ 16-4*k

section
variable {ap ap' : VhostAp} {polls : List Int} {counter now : Nat}

theorem Polling.le_of_state (h : Polling ap polls) (hs : ap.state≠.frozen) :
    ap.idleScore ≤ 16 := by
  rw [h.bucket,ne_eq,rxStateOf_frozen] at hs
  omega

/-- A branch of the switch that skips or lets the device pass as it is. -/
theorem eq_of_not_skipped {p : Prop} [Decidable p] (h : (if p then none else some ap)=some ap') :
    ap'=ap := by
  split at h
  · cases h
  · exact (Option.some.inj h).symm

/-- Past the switch the score is at most 16: a frozen device has been thawed. -/
theorem Polling.admitted (h : Polling ap polls) (ha : passSwitch counter now ap=some ap') :
    -8 ≤ ap'.idleScore ∧ ap'.idleScore ≤ 16 ∧ (ap.idleScore ≤ 16 → ap'=ap) := by
  by_cases hs : ap.state=.frozen
  · have hscore : 16 < ap.idleScore := by
      rw [← rxStateOf_frozen,← h.bucket]
      exact hs
    simp only [passSwitch,hs] at ha
    split at ha
    · cases ha
    · have ha' := Option.some.inj ha
      subst ha'
      exact ⟨show (-8 : Int) ≤ 8 by decide,show (8 : Int) ≤ 16 by decide,
        fun hle => absurd hscore (by omega)⟩
  · have hsame : ap'=ap := by
      cases hst : ap.state with
      | hot =>
        simp only [passSwitch,hst] at ha
        exact (Option.some.inj ha).symm
      | warm =>
        simp only [passSwitch,hst] at ha
        exact eq_of_not_skipped ha
      | cool =>
        simp only [passSwitch,hst] at ha
        exact eq_of_not_skipped ha
      | cold =>
        simp only [passSwitch,hst] at ha
        exact eq_of_not_skipped ha
      | frozen => exact absurd hst hs
    subst hsame
    exact ⟨h.lo,h.le_of_state hs,fun _ => rfl⟩

theorem Polling.update (h : Polling ap polls) (ha : passSwitch counter now ap=some ap') (n : Int)
    (tsc : Nat) : Polling (updateRxState ap' n tsc) (n::polls) := by
  obtain ⟨hlo,hhi,hsame⟩ := h.admitted ha
  have hscore : (updateRxState ap' n tsc).idleScore=nextScore ap'.idleScore n := rfl
  rw [nextScore_eq hlo hhi] at hscore
  refine ⟨?_,?_,rfl,?_⟩
  · rw [hscore]
    split <;> omega
  · rw [hscore]
    split <;> omega
  · intro k hk hk4 hlen hhigh
    obtain ⟨j,rfl⟩ := Nat.exists_eq_succ_of_ne_zero (Nat.ne_of_gt hk)
    have hn : lowPktBurst < n := hhigh n (by simp)
    rw [hscore,if_pos hn]
    have hbefore : ap'.idleScore ≤ 16-4*j := by
      by_cases hj : j=0
      · subst hj
        exact hhi
      · have hold := h.streak j (Nat.pos_of_ne_zero hj) (by omega)
          (Nat.le_of_succ_le_succ hlen) fun m hm => hhigh m (by simp [hm])
        rw [hsame (by omega)]
        exact hold
    push_cast
    omega

/-- A counter that is a multiple of 16 lets every device pass that is not frozen. -/
theorem passSwitch_of_multiple (hs : ap.state≠.frozen) (hc : counter%16=0) (now : Nat) :
    passSwitch counter now ap=some ap := by
  have hmask (k : Nat) (hk : k ≤ 4) : counter &&& (2^k-1)=0 := by
    rw [Nat.and_two_pow_sub_one_eq_mod]
    apply Nat.mod_eq_zero_of_dvd
    exact Nat.dvd_trans (Nat.pow_dvd_pow 2 hk) (Nat.dvd_of_mod_eq_zero hc)
  have h3 : counter &&& 3=0 := hmask 2 (by decide)
  have h7 : counter &&& 7=0 := hmask 3 (by decide)
  have h15 : counter &&& 15=0 := hmask 4 (by decide)
  cases hst : ap.state with
  | hot => simp only [passSwitch,hst]
  | warm => simp [passSwitch,hst,h3]
  | cool => simp [passSwitch,hst,h7]
  | cold => simp [passSwitch,hst,h15]
  | frozen => exact absurd hst hs

theorem passSwitch_frozen (hs : ap.state=.frozen) :
    passSwitch counter now ap=none ↔ now < ap.blockedUntilTsc := by
  simp only [passSwitch,hs]
  split
  · next h => exact iff_of_true rfl h
  · next h => exact iff_of_false nofun h

end

namespace RxLoop

variable {s : RxLoop} {v : Vid}

theorem step_cases (s : RxLoop) (a : RxStep) (v : Vid) :
    ((s.step a).ap v=s.ap v ∧ (s.step a).polls v=s.polls v) ∨
    ∃ now ap n tsc,passSwitch s.counter now (s.ap v)=some ap ∧
      (s.step a).ap v=updateRxState ap n tsc ∧ (s.step a).polls v=n::s.polls v := by
  cases a with
  | tick => exact .inl ⟨rfl,rfl⟩
  | entry L u x =>
    by_cases hl : L.live u=true
    · cases ha : passSwitch s.counter x.now (s.ap u) with
      | none => exact .inl (by simp [step,hl,ha])
      | some ap =>
        by_cases hu : v=u
        · subst hu
          exact .inr ⟨x.now,ap,x.pollNum,x.tsc,ha,by simp [step,hl,ha,poll]⟩
        · exact .inl (by simp [step,hl,ha,poll,hu])
    · exact .inl (by simp [step,hl])

theorem step_polling (a : RxStep) (h : Polling (s.ap v) (s.polls v)) :
    Polling ((s.step a).ap v) ((s.step a).polls v) := by
  rcases step_cases s a v with ⟨hap,hpolls⟩ | ⟨now,ap,n,tsc,ha,hap,hpolls⟩
  · rw [hap,hpolls]
    exact h
  · rw [hap,hpolls]
    exact h.update ha n tsc

theorem run_polling (l : List RxStep) (h : Polling (s.ap v) (s.polls v)) :
    Polling ((s.run l).ap v) ((s.run l).polls v) := by
  induction l generalizing s with
  | nil => exact h
  | cons a l ih => exact ih (step_polling a h)

theorem init_polling (v : Vid) : Polling (init.ap v) (init.polls v) where
  lo := show (-8 : Int) ≤ 0 by decide
  hi := show (0 : Int) ≤ 17 by decide
  bucket := rfl
  streak := by
    intro k hk _ hlen
    exact absurd hlen (Nat.not_le.mpr hk)

theorem run_polls_le (l : List RxStep) (s : RxLoop) (v : Vid) :
    (s.polls v).length ≤ ((s.run l).polls v).length := by
  induction l generalizing s with
  | nil => exact Nat.le_refl _
  | cons a l ih =>
    apply Nat.le_trans _ (ih (s.step a))
    rcases step_cases s a v with ⟨-,hpolls⟩ | ⟨_,_,_,_,-,-,hpolls⟩
    · rw [hpolls]
    · rw [hpolls]
      exact Nat.le_succ _

theorem run_unpolled (l : List RxStep) (h : ((s.run l).polls v).length=(s.polls v).length) :
    (s.run l).ap v=s.ap v ∧ (s.run l).polls v=s.polls v := by
  induction l generalizing s with
  | nil => exact ⟨rfl,rfl⟩
  | cons a l ih =>
    have hle := run_polls_le l (s.step a) v
    change (((s.step a).run l).polls v).length=_ at h
    rcases step_cases s a v with ⟨hap,hpolls⟩ | ⟨_,_,_,_,-,-,hpolls⟩
    · obtain ⟨hap',hpolls'⟩ := ih (s:=s.step a) (by rw [h,hpolls])
      exact ⟨hap'.trans hap,hpolls'.trans hpolls⟩
    · rw [hpolls,List.length_cons] at hle
      omega

theorem run_append (s : RxLoop) (l k : List RxStep) : s.run (l++k)=(s.run l).run k :=
  List.foldl_append

theorem run_counter (l : List RxStep) (h : .tick∉l) (s : RxLoop) :
    (s.run l).counter=s.counter := by
  induction l generalizing s with
  | nil => rfl
  | cons a l ih =>
    change ((s.step a).run l).counter=_
    rw [ih fun hm => h (List.mem_cons_of_mem _ hm)]
    cases a with
    | tick => exact absurd List.mem_cons_self h
    | entry L u x =>
      simp only [step]
      split
      · split <;> rfl
      · rfl

/-- A vid that is not polled has been stopped by the switch at each of its entries. -/
theorem unpolled_entry {l : List RxStep} (htick : .tick∉l)
    (h : ((s.run l).polls v).length=(s.polls v).length) {L : VdevList} {x : Look}
    (hm : .entry L v x∈l) (hl : L.live v=true) : passSwitch s.counter x.now (s.ap v)=none := by
  obtain ⟨before,after,rfl⟩ := List.append_of_mem hm
  rw [run_append] at h
  have hle := run_polls_le before s v
  have hle' := run_polls_le (.entry L v x::after) (s.run before) v
  obtain ⟨hap,-⟩ := run_unpolled before (s:=s) (v:=v) (by omega)
  have hcounter := run_counter before (fun hm => htick (List.mem_append_left _ hm)) s
  have hstep : (((s.run before).step (.entry L v x)).polls v).length ≤ (s.polls v).length := by
    rw [← h]
    exact run_polls_le after _ v
  rcases hc : passSwitch s.counter x.now (s.ap v) with _ | ap
  · rfl
  · simp [step,hl,hcounter,hap,hc,poll] at hstep
    omega

theorem run_early {l : List RxStep} (hs : (s.ap v).state=.frozen)
    (h : ∀ L x,.entry L v x∈l → x.now < (s.ap v).blockedUntilTsc) :
    (s.run l).ap v=s.ap v ∧ (s.run l).polls v=s.polls v := by
  induction l generalizing s with
  | nil => exact ⟨rfl,rfl⟩
  | cons a l ih =>
    have hstep : (s.step a).ap v=s.ap v ∧ (s.step a).polls v=s.polls v := by
      cases a with
      | tick => exact ⟨rfl,rfl⟩
      | entry L u x =>
        by_cases hu : v=u
        · subst hu
          have hnone : passSwitch s.counter x.now (s.ap v)=none :=
            (passSwitch_frozen hs).mpr (h L x List.mem_cons_self)
          simp [step,hnone]
        · simp only [step]
          split
          · split
            · exact ⟨rfl,rfl⟩
            · simp [poll,hu]
          · exact ⟨rfl,rfl⟩
    have htail := ih (s:=s.step a) (by rw [hstep.1]; exact hs) fun L x hm => by
      rw [hstep.1]
      exact h L x (List.mem_cons_of_mem _ hm)
    exact ⟨htail.1.trans hstep.1,htail.2.trans hstep.2⟩

end RxLoop

section
variable {it : Iteration} {s : RxLoop} {v : Vid}

theorem Iteration.mem_steps {L : VdevList} {x : Look} (h : .entry L v x∈it.steps) :
    it.list=some L ∧ ∃ k,it.plan.entries[k]?=some v ∧ x=it.looks k := by
  unfold Iteration.steps at h
  rcases List.mem_cons.mp h with h | h
  · cases h
  · split at h
    · cases h
    · next L' hL =>
      obtain ⟨⟨u,k⟩,hm,he⟩ := List.mem_map.mp h
      cases he
      exact ⟨hL,k,List.mk_mem_zipIdx_iff_getElem?.mp hm,rfl⟩

theorem Iteration.steps_eq {L : VdevList} (h : it.list=some L) : it.steps=
    .tick::it.plan.entries.zipIdx.map fun e => .entry L e.1 (it.looks e.2) := by
  rw [Iteration.steps,h]

theorem RxLoop.iteration_counter (it : Iteration) (s : RxLoop) :
    (s.run it.steps).counter=(s.counter+1)%2^64 := by
  unfold Iteration.steps
  change ((s.step .tick).run _).counter=_
  rw [RxLoop.run_counter]
  · rfl
  · split
    · exact List.not_mem_nil
    · simp

/-- An iteration that does not poll a vid in its plan has been stopped by the switch. -/
theorem RxLoop.iteration_misses {L : VdevList} (hL : it.list=some L) (hl : L.live v=true)
    (h : ((s.run it.steps).polls v).length=(s.polls v).length) {k : Nat}
    (hk : it.plan.entries[k]?=some v) :
    passSwitch ((s.counter+1)%2^64) (it.looks k).now (s.ap v)=none := by
  rw [Iteration.steps_eq hL] at h
  apply RxLoop.unpolled_entry (s:=s.step .tick) (L:=L) _ h _ hl
  · simp
  · apply List.mem_map.mpr
    exact ⟨(v,k),List.mk_mem_zipIdx_iff_getElem?.mpr hk,rfl⟩

theorem RxLoop.iterations_cons (s : RxLoop) (it : Iteration) (its : List Iteration) :
    s.vhostRxIterations (it::its)=(s.run it.steps).vhostRxIterations its :=
  RxLoop.run_append ..

/-- Iterations that do not poll a vid which is not frozen avoid the multiples of 16. -/
theorem RxLoop.iterations_miss {its : List Iteration} (hserve : ∀ it∈its,it.Serves v)
    (hs : (s.ap v).state≠.frozen)
    (h : ((s.vhostRxIterations its).polls v).length=(s.polls v).length) {k : Nat}
    (hk : k < its.length) : (s.counter+k+1)%16≠0 := by
  induction its generalizing s k with
  | nil => exact absurd hk (Nat.not_lt_zero _)
  | cons it its ih =>
    rw [RxLoop.iterations_cons] at h
    have hle := RxLoop.run_polls_le it.steps s v
    have hle' := RxLoop.run_polls_le (its.flatMap Iteration.steps) (s.run it.steps) v
    change _ ≤ (((s.run it.steps).vhostRxIterations its).polls v).length at hle'
    have hone : ((s.run it.steps).polls v).length=(s.polls v).length := by omega
    cases k with
    | zero =>
      obtain ⟨hmem,L,hL,hl⟩ := hserve it List.mem_cons_self
      obtain ⟨j,hj⟩ := List.mem_iff_getElem?.mp hmem
      have hnone := RxLoop.iteration_misses hL hl hone hj
      intro hzero
      rw [passSwitch_of_multiple hs (by omega)] at hnone
      cases hnone
    | succ k =>
      obtain ⟨hap,-⟩ := RxLoop.run_unpolled it.steps hone
      have htail := ih (s:=s.run it.steps) (fun i hi => hserve i (List.mem_cons_of_mem _ hi))
        (by rw [hap]; exact hs) (by rw [h,hone]) (Nat.lt_of_succ_lt_succ hk)
      rw [RxLoop.iteration_counter] at htail
      omega

theorem RxLoop.iterations_early {its : List Iteration} (hs : (s.ap v).state=.frozen)
    (h : ∀ it∈its,it.Early v (s.ap v).blockedUntilTsc) :
    (s.vhostRxIterations its).ap v=s.ap v ∧ (s.vhostRxIterations its).polls v=s.polls v := by
  apply RxLoop.run_early hs
  intro L x hm
  obtain ⟨it,hit,hx⟩ := List.mem_flatMap.mp hm
  obtain ⟨-,k,hk,rfl⟩ := Iteration.mem_steps hx
  exact h it hit k hk

end

/-- In every run of vhost_rx_loop, whatever the polls return and the clock reads: the score stays
in its range and no step of it overflows; the state is that of the score; of 16 iterations that
serve a device which is not frozen one polls it; a frozen device is polled in the first iteration
that reads the clock at its time or later, and not before; and after 4 polls in a row with many
packets the device is hot. -/
theorem polling_never_starves (v : Vid) (l : List RxStep) :
    let s := RxLoop.init.run l
    (-8 ≤ (s.ap v).idleScore ∧ (s.ap v).idleScore ≤ 17) ∧
    (∀ now ap,passSwitch s.counter now (s.ap v)=some ap →
      toInt8 (ap.idleScore-4)=ap.idleScore-4 ∧ toInt8 (ap.idleScore+1)=ap.idleScore+1) ∧
    (s.ap v).state=rxStateOf (s.ap v).idleScore ∧
    (∀ its : List Iteration,its.length=16 → (∀ it∈its,it.Serves v) → (s.ap v).state≠.frozen →
      (s.polls v).length < ((s.vhostRxIterations its).polls v).length) ∧
    (∀ (its : List Iteration) (it : Iteration),(s.ap v).state=.frozen →
      (∀ i∈its,i.Early v (s.ap v).blockedUntilTsc) → it.Serves v →
      it.Due v (s.ap v).blockedUntilTsc → (s.vhostRxIterations its).polls v=s.polls v ∧
        (s.polls v).length < ((s.vhostRxIterations (its++[it])).polls v).length) ∧
    (4 ≤ (s.polls v).length → (∀ n∈(s.polls v).take 4,lowPktBurst < n) →
      (s.ap v).state=.hot) := by
  intro s
  have hinv : Polling (s.ap v) (s.polls v) := RxLoop.run_polling l (RxLoop.init_polling v)
  refine ⟨⟨hinv.lo,hinv.hi⟩,?_,hinv.bucket,?_,?_,?_⟩
  · intro now ap ha
    obtain ⟨hlo,hhi,-⟩ := hinv.admitted ha
    exact ⟨toInt8_eq (by omega) (by omega),toInt8_eq (by omega) (by omega)⟩
  · intro its hlen hserve hs
    have hle := RxLoop.run_polls_le (its.flatMap Iteration.steps) s v
    apply Nat.lt_of_le_of_ne hle
    intro heq
    have hk : 15-s.counter%16 < its.length := by omega
    have hmiss := RxLoop.iterations_miss hserve hs heq.symm hk
    omega
  · intro its it hs hearly hserve hdue
    obtain ⟨hap,hpolls⟩ := RxLoop.iterations_early hs hearly
    refine ⟨hpolls,?_⟩
    have hlast : s.vhostRxIterations (its++[it])=(s.vhostRxIterations its).run it.steps := by
      unfold RxLoop.vhostRxIterations
      rw [List.flatMap_append,RxLoop.run_append]
      simp
    rw [hlast,← hpolls]
    apply Nat.lt_of_le_of_ne (RxLoop.run_polls_le it.steps _ v)
    intro heq
    obtain ⟨-,L,hL,hl⟩ := hserve
    obtain ⟨k,hk,htime⟩ := hdue
    have hnone := RxLoop.iteration_misses hL hl heq.symm hk
    rw [hap,passSwitch_frozen hs] at hnone
    omega
  · intro hlen hhigh
    have hscore := hinv.streak 4 (by decide) (by decide) hlen hhigh
    rw [hinv.bucket,rxStateOf,if_pos (by omega)]

/-- Iterations at a time, with VM 3 in the plan, that find no packet. -/
def quietAt (now : Nat) : Iteration :=
  ⟨⟨1,fun _ => 3⟩,some (VdevList.empty.insert 3 0),fun _ => ⟨now,0,now⟩⟩

/-- 17 empty polls at time 1000 freeze the device until 101000; an iteration before that passes it
by, one at that time polls it. -/
theorem polling_never_starves_quiet :
    let s := RxLoop.init.run (List.replicate 17 (.entry (VdevList.empty.insert 3 0) 3 ⟨1000,0,1000⟩))
    (s.ap 3).state=.frozen ∧ (s.ap 3).idleScore=17 ∧ (s.ap 3).blockedUntilTsc=101000 ∧
      (s.vhostRxIterations [quietAt 2000]).polls 3=s.polls 3 ∧
      17 < ((s.vhostRxIterations [quietAt 2000,quietAt 101000]).polls 3).length := by
  intro s
  have hs : (s.ap 3).state=.frozen := by decide +kernel
  have htime : (s.ap 3).blockedUntilTsc=101000 := by decide +kernel
  have hlen : (s.polls 3).length=17 := by decide +kernel
  obtain ⟨-,-,-,-,hfrozen,-⟩ := polling_never_starves 3
    (List.replicate 17 (.entry (VdevList.empty.insert 3 0) 3 ⟨1000,0,1000⟩))
  obtain ⟨hbefore,hafter⟩ := hfrozen [quietAt 2000] (quietAt 101000) hs (by
    intro it hit k hk
    rw [List.mem_singleton.mp hit,htime]
    exact show 2000 < 101000 by decide) ⟨by decide +kernel,_,rfl,rfl⟩ ⟨0,by decide +kernel,by
    rw [htime]
    exact Nat.le_refl _⟩
  refine ⟨hs,by decide +kernel,htime,hbefore,?_⟩
  rw [← hlen]
  exact hafter

end Umanet
