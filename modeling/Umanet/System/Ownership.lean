import Umanet.System.Dataplane
import Mathlib.Data.Fintype.Sigma
import Mathlib.Data.Fintype.Sum
import Mathlib.Tactic.DeriveFintype

namespace Umanet

open Framework

/-- What an ingress thread has: the rows of its arrays, and the requests among its messages. -/
inductive Row (n : Node)
  | vm (v : Vid)
  | eth (q : Fin n.cfg.ethTxQueues)
  | msgs
  deriving DecidableEq, Fintype

/-- Who can have an mbuf. -/
inductive Holder (n : Node)
  | pool
  | lost
  | vmRing (v : Vid)
  | ethRing (q : Fin n.cfg.ethTxQueues)
  | nic (q : Fin n.cfg.ethTxQueues)
  | slowRing
  | rx (c : n.Rx) (r : Row n)
  | tx (c : Fin n.cfg.vhostTxCores) (v : Vid)
  | ethTx (c : Fin n.ethTxCores) (q : Fin n.cfg.ethTxQueues)
  | slow
  deriving DecidableEq, Fintype

variable {μ : Type} {n : Node}

def Staging.row (st : Staging μ) : Row n → List μ
  | .vm v => st.vmPkts v
  | .eth q => st.ethPkts q
  | .msgs => arpMbufs st.slowMsgs

def RxThread.row (core : RxThread μ) : Row n → List μ
  | .vm v => core.arrays.vmPkts v
  | .eth q => core.arrays.ethPkts q
  | .msgs => arpMbufs core.pc.msgs

/-- The row a packet is put into; none is a packet that is dropped. -/
def Exit.row (n : Node) : Exit → Option (Row n)
  | .slow => some .msgs
  | .drop => none
  | .vm v => some (.vm v)
  | .eth q => if h : q < n.cfg.ethTxQueues then some (.eth ⟨q,h⟩) else none

def Dataplane.held (s : Dataplane n μ) : Holder n → List μ
  | .pool => s.pool
  | .lost => s.lost
  | .vmRing v => s.vmRing v
  | .ethRing q => s.ethRing q
  | .nic q => s.nic q
  | .slowRing => arpMbufs s.slowRing
  | .rx c r => (s.rx c).row r
  | .tx c v => (s.tx c).line v
  | .ethTx c q => (s.ethTx c).held q
  | .slow => s.slow.held

theorem arpMbufs_append (l k : List (SlowMsg μ)) : arpMbufs (l++k)=arpMbufs l++arpMbufs k :=
  bucket_append ..

theorem arpMbufs_take_drop (l : List (SlowMsg μ)) (k : Nat) :
    arpMbufs (l.take k)++arpMbufs (l.drop k)=arpMbufs l := by
  rw [← arpMbufs_append,List.take_append_drop]

theorem Burst.arpMbufs_learnMsgs (b : Burst μ) : arpMbufs b.learnMsgs=[] := by
  unfold learnMsgs
  split
  · rfl
  · rfl

theorem stageVm_row {st st' : Staging μ} {v : Vid} {m : μ} (h : stageVm st v m=some st') :
    (st'.row : Row n → List μ)=Function.update st.row (.vm v) (st.row (.vm v : Row n)++[m]) := by
  obtain ⟨l,hl,he⟩ := Option.map_eq_some_iff.mp h
  have hl' := eq_of_push hl
  have hvm : st'.vmPkts=Function.update st.vmPkts v (st.vmPkts v++[m]) ∧
      st'.ethPkts=st.ethPkts ∧ st'.slowMsgs=st.slowMsgs := by
    subst hl'
    rw [← he]
    split_ifs
    all_goals exact ⟨rfl,rfl,rfl⟩
  funext r
  cases r with
  | vm u =>
    rw [Staging.row,hvm.1]
    by_cases hu : u=v
    · subst hu
      simp [Staging.row]
    · have hne : (Row.vm u : Row n)≠.vm v := fun e => hu (Row.vm.inj e)
      rw [Function.update_of_ne hu,Function.update_of_ne hne,Staging.row]
  | eth q => simp [Staging.row,hvm.2.1]
  | msgs => simp [Staging.row,hvm.2.2]

theorem pushMsg_row {st st' : Staging μ} {src : SlowSrc} {m : μ}
    (h : (push maxPktBurst st.slowMsgs ⟨.arpReq,src,m⟩).map
      (fun l => {st with slowMsgs:=l})=some st') :
    (st'.row : Row n → List μ)=Function.update st.row .msgs (st.row (.msgs : Row n)++[m]) := by
  obtain ⟨l,hl,he⟩ := Option.map_eq_some_iff.mp h
  have hl' := eq_of_push hl
  subst hl'
  rw [← he]
  funext r
  cases r with
  | vm u => simp [Staging.row]
  | eth q => simp [Staging.row]
  | msgs => simp [Staging.row,arpMbufs,bucket]

section
variable {cfg : Config} {rss : Softrss} {base : Ip} {vid : Vid} {st st' : Staging μ}
  {p : Polled μ}

theorem exitOf_row (p : Polled μ) :
    (exitOf n.cfg n.rss p).row n=none ↔ exitOf n.cfg n.rss p=.drop := by
  cases he : exitOf n.cfg n.rss p with
  | slow => simp [Exit.row]
  | drop => simp [Exit.row]
  | vm v => simp [Exit.row]
  | eth q => simp [Exit.row,exitOf_eth_lt he]

theorem ethExitOf_row (p : Polled μ) :
    (ethExitOf n.cfg.ip p).row n=none ↔ ethExitOf n.cfg.ip p=.drop := by
  cases he : ethExitOf n.cfg.ip p with
  | slow => simp [Exit.row]
  | drop => simp [Exit.row]
  | vm v => simp [Exit.row]
  | eth q => exact absurd he (ethExitOf_ne_eth q)

theorem stageOne_dropped (h : stageOne n.cfg n.rss vid st p=some st')
    (hr : (exitOf n.cfg n.rss p).row n=none) : (st'.row : Row n → List μ)=st.row := by
  rw [exitOf_row] at hr
  rw [stageOne,hr] at h
  rw [← Option.some.inj h]

theorem stageOne_row {r : Row n} (h : stageOne n.cfg n.rss vid st p=some st')
    (hr : (exitOf n.cfg n.rss p).row n=some r) :
    st'.row=Function.update st.row r (st.row r++[p.mbuf]) := by
  cases he : exitOf n.cfg n.rss p with
  | slow =>
    rw [he] at hr
    have hr' := Option.some.inj hr
    subst hr'
    rw [stageOne,he] at h
    exact pushMsg_row h
  | drop =>
    rw [he] at hr
    cases hr
  | vm v =>
    rw [he] at hr
    have hr' := Option.some.inj hr
    subst hr'
    rw [stageOne,he] at h
    exact stageVm_row h
  | eth q =>
    have hq := exitOf_eth_lt he
    rw [he,Exit.row,dif_pos hq] at hr
    have hr' := Option.some.inj hr
    subst hr'
    rw [stageOne,he] at h
    obtain ⟨l,hl,hst⟩ := Option.map_eq_some_iff.mp h
    have hl' := eq_of_push hl
    subst hl'
    rw [← hst]
    funext r
    cases r with
    | vm u => simp [Staging.row]
    | eth q' =>
      by_cases hqq : q'=⟨q,hq⟩
      · subst hqq
        simp [Staging.row]
      · have hne : (Row.eth q' : Row n)≠.eth ⟨q,hq⟩ := fun e => hqq (Row.eth.inj e)
        have hval : q'.val≠q := fun e => hqq (Fin.ext e)
        rw [Function.update_of_ne hne]
        exact Function.update_of_ne hval ..
    | msgs => simp [Staging.row]

theorem ethStageOne_dropped {b : EthBurst μ} (h : ethStageOne n.cfg.ip b st p=some st')
    (hr : (ethExitOf n.cfg.ip p).row n=none) : (st'.row : Row n → List μ)=st.row := by
  rw [ethExitOf_row] at hr
  rw [ethStageOne,hr] at h
  rw [← Option.some.inj h]

theorem ethStageOne_row {b : EthBurst μ} {r : Row n} (h : ethStageOne n.cfg.ip b st p=some st')
    (hr : (ethExitOf n.cfg.ip p).row n=some r) :
    st'.row=Function.update st.row r (st.row r++[p.mbuf]) := by
  cases he : ethExitOf n.cfg.ip p with
  | slow =>
    rw [he] at hr
    have hr' := Option.some.inj hr
    subst hr'
    rw [ethStageOne,he] at h
    exact pushMsg_row h
  | drop =>
    rw [he] at hr
    cases hr
  | vm v =>
    rw [he] at hr
    have hr' := Option.some.inj hr
    subst hr'
    rw [ethStageOne,he] at h
    obtain ⟨d,-,hst⟩ := Option.bind_eq_some_iff.mp h
    exact stageVm_row hst
  | eth q => exact absurd he (ethExitOf_ne_eth q)

end

def destOf (c : n.Rx) : Option (Row n) → Holder n
  | none => .lost
  | some r => .rx c r

theorem bucket_congr {α β : Type} {p q : α → Bool} {f : α → β} {l : List α}
    (h : ∀ x∈l,p x=q x) : bucket p f l=bucket q f l := by
  rw [bucket,bucket,List.filter_congr h]

theorem TxCore.mem_todo_of_next {core : TxCore μ} {v : Vid} (h : core.next=some v) :
    v∈core.todo := by
  unfold next at h
  split at h
  · next todo hpc =>
    rw [TxCore.todo,hpc]
    exact List.mem_of_mem_head? h
  · cases h

theorem TxCore.step_todo {core : TxCore μ} {plan : List Vid} {rings : Vid → List μ} {x : TxAct}
    {o : TxOut μ} (h : core.step plan rings x=some o) :
    x=.load ∧ o.core.todo=plan ∨ o.core.todo⊆core.todo := by
  cases x with
  | load =>
    simp only [TxCore.step] at h
    split at h
    · obtain rfl := Option.some.inj h
      exact Or.inl ⟨rfl,rfl⟩
    · cases h
  | visit start now ret =>
    simp only [TxCore.step] at h
    split at h
    · next v todo hpc =>
      obtain rfl := Option.some.inj h
      right
      rw [TxCore.todo,TxCore.todo,hpc]
      obtain he | ⟨-,-,-,he⟩ | ⟨-,he⟩ := core.serve_cases rings start now ret v todo
      · rw [he]
        exact List.subset_cons_self ..
      · rw [he]
        exact List.Subset.refl _
      · rw [he]
        exact List.subset_cons_self ..
    · cases h
  | send now ret =>
    simp only [TxCore.step] at h
    split at h
    · next v pkts todo hpc =>
      obtain rfl := Option.some.inj h
      right
      rw [TxCore.todo,TxCore.todo,hpc]
      exact List.subset_cons_self ..
    · cases h

namespace Dataplane

variable [DecidableEq μ] {s t : Dataplane n μ}

theorem held_polled {β : Type} {c : n.Rx} {label : β → Option (Row n)} {tag : β → μ}
    {pkts : List β} {stores : List (μ × Data)} {dropped : List μ} {st : Staging μ} {pc : RxAt μ}
    (seen : List Seen) (hstores : stores.map Prod.fst=pkts.map tag) (hpc : pc.msgs=st.slowMsgs)
    (hdropped : dropped=bucket (fun x => decide (label x=none)) tag pkts)
    (hrow : ∀ r,st.row r=(s.rx c).row r++bucket (fun x => decide (label x=some r)) tag pkts) :
    (s.polled c stores dropped st pc seen).held=fun h =>
      Function.update s.held .pool (s.pool.diff (pkts.map tag)) h++
        bucket (fun x => decide (destOf c (label x)=h)) tag pkts := by
  have hnone : ∀ h : Holder n,h≠.lost → (∀ r,h≠.rx c r) →
      bucket (fun x => decide (destOf c (label x)=h)) tag pkts=[] := by
    intro h hl hr
    rw [bucket,List.map_eq_nil_iff,List.filter_eq_nil_iff]
    intro x _ hx
    cases hlabel : label x with
    | none =>
      simp only [hlabel,destOf,decide_eq_true_eq] at hx
      exact hl hx.symm
    | some r =>
      simp only [hlabel,destOf,decide_eq_true_eq] at hx
      exact hr r hx.symm
  funext h
  cases h with
  | pool =>
    rw [hnone _ (by simp) (by simp),Function.update_self,List.append_nil,← hstores]
    rfl
  | lost =>
    rw [Function.update_of_ne (by simp)]
    change s.lost++dropped=s.lost++_
    rw [hdropped]
    congr 1
    apply bucket_congr
    intro x _
    cases label x with
    | none => simp [destOf]
    | some r => simp [destOf]
  | rx c' r =>
    rw [Function.update_of_ne (by simp)]
    change (Function.update s.rx c _ c').row r=(s.rx c').row r++_
    by_cases hc : c'=c
    · subst hc
      rw [Function.update_self]
      have hst : ({s.rx c' with pc:=pc,arrays:=⟨st.vmPkts,st.ethPkts⟩} : RxThread μ).row r=
          st.row r := by
        cases r with
        | vm v => rfl
        | eth q => rfl
        | msgs => exact congrArg arpMbufs hpc
      rw [hst,hrow r]
      congr 1
      apply bucket_congr
      intro x _
      cases label x with
      | none => simp [destOf]
      | some r' => simp [destOf]
    · have hne : ∀ r',(Holder.rx c' r : Holder n)≠.rx c r' := by
        intro r' e
        exact hc (Holder.rx.inj e).1
      rw [Function.update_of_ne hc,hnone _ (by simp) hne,List.append_nil]
  | _ => rw [hnone _ (by simp) (by simp),Function.update_of_ne (by simp),List.append_nil]; rfl

def give (h : Holder n) (part : List μ) : Holder n → List μ := Function.update (fun _ => []) h part

omit [DecidableEq μ] in
theorem mem_give {h k : Holder n} {part : List μ} {m : μ} (hm : m∈give h part k) :
    k=h ∧ m∈part := by
  by_cases hk : k=h
  · subst hk
    rw [give,Function.update_self] at hm
    exact ⟨rfl,hm⟩
  · rw [give,Function.update_of_ne hk] at hm
    cases hm

theorem holders_give (h : Holder n) (part : List μ) (m : μ) :
    holders (give h part) m=part.count m := by
  have hu := holders_update (f:=fun _ : Holder n => ([] : List μ)) (p:=h) rfl part m
  have hnil : holders (fun _ : Holder n => ([] : List μ)) m=0 := by simp [holders]
  rw [hnil,List.count_nil] at hu
  rw [give]
  omega

/-- A step after which one holder has `left`, and what it had besides is with others; bytes
are written only to mbufs it had. -/
structure Handout (s t : Dataplane n μ) (p : Holder n) (left : List μ) (parts : Holder n → List μ)
    (stores : List (μ × Data)) : Prop where
  held : t.held=fun h => Function.update s.held p left h++parts h
  all : ∀ m,left.count m+holders parts m=(s.held p).count m
  mem : t.mem=storeAll s.mem stores
  keys : ∀ x∈stores,x.1∈s.held p

theorem Handout.conserved {p : Holder n} {left : List μ} {parts : Holder n → List μ}
    {stores : List (μ × Data)} (h : Handout s t p left parts stores) (m : μ) :
    holders t.held m=holders s.held m := by
  have hu := holders_update (f:=s.held) (p:=p) rfl left m
  have ha := h.all m
  rw [h.held,holders_append]
  omega

theorem Handout.quiet (hh : t.held=s.held) (hm : t.mem=s.mem) :
    Handout s t .lost s.lost (fun _ => []) [] := by
  have hsame : Function.update s.held .lost s.lost=s.held := Function.update_eq_self .lost s.held
  refine ⟨?_,fun m => ?_,hm,fun x hx => by cases hx⟩
  · simp only [hh,hsame,List.append_nil]
  · simp [holders,Dataplane.held]

theorem Handout.pass {p q : Holder n} {part left : List μ} {stores : List (μ × Data)}
    (hp : (s.held p).Perm (part++left))
    (hh : t.held=fun h => Function.update s.held p left h++give q part h)
    (hm : t.mem=storeAll s.mem stores) (hk : ∀ x∈stores,x.1∈s.held p) :
    Handout s t p left (give q part) stores := by
  refine ⟨hh,fun m => ?_,hm,hk⟩
  rw [holders_give,hp.count_eq,List.count_append,Nat.add_comm]

theorem Handout.divide {p q r : Holder n} {l : List μ} {k : Nat} {stores : List (μ × Data)}
    (hp : s.held p=l) (hh : t.held=fun h => Function.update s.held p [] h++
      (give q (l.take k) h++give r (l.drop k) h))
    (hm : t.mem=storeAll s.mem stores) (hk : ∀ x∈stores,x.1∈s.held p) :
    Handout s t p [] (fun h => give q (l.take k) h++give r (l.drop k) h) stores := by
  refine ⟨hh,fun m => ?_,hm,hk⟩
  rw [holders_append,holders_give,holders_give,hp,← List.count_append,List.take_append_drop,
    List.count_nil,Nat.zero_add]

theorem polled_handout {β : Type} {c : n.Rx} {label : β → Option (Row n)} {tag : β → μ}
    {pkts : List β} {stores : List (μ × Data)} {dropped : List μ} {st : Staging μ} {pc : RxAt μ}
    (seen : List Seen) (hfresh : s.Fresh (pkts.map tag))
    (hstores : stores.map Prod.fst=pkts.map tag) (hpc : pc.msgs=st.slowMsgs)
    (hdropped : dropped=bucket (fun x => decide (label x=none)) tag pkts)
    (hrow : ∀ r,st.row r=(s.rx c).row r++bucket (fun x => decide (label x=some r)) tag pkts) :
    Handout s (s.polled c stores dropped st pc seen) .pool (s.pool.diff (pkts.map tag))
      (fun h => bucket (fun x => decide (destOf c (label x)=h)) tag pkts) stores := by
  obtain ⟨-,-,hnodup,hpool⟩ := hfresh
  refine ⟨held_polled seen hstores hpc hdropped hrow,fun m => ?_,rfl,fun x hx => ?_⟩
  · have hle : (pkts.map tag).count m ≤ s.pool.count m := by
      by_cases hm : m∈pkts.map tag
      · rw [List.count_eq_one_of_mem hnodup hm]
        exact List.count_pos_iff.mpr (hpool m hm)
      · rw [List.count_eq_zero.mpr hm]
        exact Nat.zero_le _
    rw [holders_bucket,List.count_diff]
    exact Nat.sub_add_cancel hle
  · apply hpool
    rw [← hstores]
    exact List.mem_map_of_mem hx

/-- The parts of the state that only one kind of thread changes. -/
structure SameLogs (s t : Dataplane n μ) : Prop where
  seen : t.seen=s.seen
  delivered : t.delivered=s.delivered
  sent : t.sent=s.sent

theorem rxPoll_cases {c : Fin n.cfg.vhostRxCores} {vid : Vid} {learning : Bool}
    {pkts : List (Polled μ)} (h : s.rxPoll c vid learning pkts=some t) :
    (pkts.map Polled.mbuf).Nodup ∧ t.seen=s.seen++pkts.map (fun p => .vhost p.data p.route) ∧
    t.delivered=s.delivered ∧ t.sent=s.sent ∧ t.tx=s.tx ∧
    Handout s t .pool (s.pool.diff (pkts.map Polled.mbuf))
      (fun h => bucket (fun p => decide (destOf (.inl c) ((exitOf n.cfg n.rss p).row n)=h))
        Polled.mbuf pkts) (pkts.map fun p => (p.mbuf,p.data)) := by
  unfold rxPoll at h
  split at h
  · next hpc =>
    split at h
    · next hfresh =>
      obtain ⟨st,hst,ht⟩ := Option.map_eq_some_iff.mp h
      subst ht
      refine ⟨hfresh.2.2.1,rfl,rfl,rfl,rfl,polled_handout _ hfresh ?_ rfl ?_ fun r => ?_⟩
      · rw [List.map_map]
        rfl
      · apply bucket_congr
        intro p _
        simp only [exitOf_row]
      · rw [foldlM_rows Staging.row stageOne_dropped stageOne_row pkts hst r]
        congr 1
        cases r with
        | vm v => rfl
        | eth q => rfl
        | msgs => rw [Staging.row,Burst.arpMbufs_learnMsgs,RxThread.row,hpc]; rfl
    · cases h
  · cases h

theorem ethPoll_cases {c : Fin n.cfg.ethRxCores} {queue : Nat} {snap : Option VdevList}
    {pkts : List (NicPacket μ)} (h : s.ethPoll c queue snap pkts=some t) :
    (pkts.map fun p => p.mbuf).Nodup ∧
    t.seen=s.seen++pkts.map (fun p => .nic p.vmMac p.data p.route) ∧
    t.delivered=s.delivered ∧ t.sent=s.sent ∧ t.tx=s.tx ∧
    Handout s t .pool (s.pool.diff (pkts.map fun p => p.mbuf))
      (fun h => bucket
        (fun p => decide (destOf (.inr c) ((ethExitOf n.cfg.ip p.toPolled).row n)=h))
        (fun p => p.mbuf) pkts) (pkts.map fun p => (p.mbuf,p.stored n)) := by
  unfold ethPoll at h
  split at h
  · next hpc =>
    split at h
    · next hfresh =>
      obtain ⟨st,hst,ht⟩ := Option.map_eq_some_iff.mp h
      subst ht
      refine ⟨hfresh.2.2.1,rfl,rfl,rfl,rfl,polled_handout _ hfresh ?_ rfl ?_ fun r => ?_⟩
      · rw [List.map_map]
        rfl
      · rw [ethSentTo,bucket,List.filter_map,List.map_map]
        change bucket _ _ pkts=_
        apply bucket_congr
        intro p _
        simp only [Function.comp_apply,ethExitOf_row]
      · have hrows := foldlM_rows Staging.row ethStageOne_dropped ethStageOne_row
          (pkts.map NicPacket.toPolled) hst r
        rw [bucket,List.filter_map,List.map_map] at hrows
        rw [hrows]
        congr 1
        cases r with
        | vm v => rfl
        | eth q => rfl
        | msgs => rw [RxThread.row,hpc]; rfl
    · cases h
  · cases h

omit [DecidableEq μ] in
theorem rx_row {c : n.Rx} {core : RxThread μ} {r : Row n} {l : List μ}
    (h : core.row=Function.update (s.rx c).row r l) (c' : n.Rx) (r' : Row n) :
    (Function.update s.rx c core c').row r'=Function.update s.held (.rx c r) l (.rx c' r') := by
  by_cases hc : c'=c
  · subst hc
    rw [Function.update_self,h]
    by_cases hr : r'=r
    · subst hr
      simp
    · have hne : (Holder.rx c' r' : Holder n)≠.rx c' r := fun e => hr (Holder.rx.inj e).2
      rw [Function.update_of_ne hr,Function.update_of_ne hne]
      rfl
  · have hne : (Holder.rx c' r' : Holder n)≠.rx c r := fun e => hc (Holder.rx.inj e).1
    rw [Function.update_of_ne hc,Function.update_of_ne hne]
    rfl

omit [DecidableEq μ] in
theorem rx_same {c : n.Rx} {core : RxThread μ} (h : (core.row : Row n → List μ)=(s.rx c).row)
    (c' : n.Rx) (r' : Row n) : (Function.update s.rx c core c').row r'=s.held (.rx c' r') := by
  by_cases hc : c'=c
  · subst hc
    rw [Function.update_self,h]
    rfl
  · rw [Function.update_of_ne hc]
    rfl

omit [DecidableEq μ] in
theorem row_pc {core : RxThread μ} {pc : RxAt μ} (h : pc.msgs=core.pc.msgs) :
    (({core with pc:=pc} : RxThread μ).row : Row n → List μ)=core.row := by
  funext r
  cases r with
  | vm v => rfl
  | eth q => rfl
  | msgs => exact congrArg arpMbufs h

omit [DecidableEq μ] in
theorem held_pc {c : n.Rx} {pc : RxAt μ} (h : pc.msgs=(s.rx c).pc.msgs) :
    ({s with rx:=Function.update s.rx c {s.rx c with pc:=pc}} : Dataplane n μ).held=s.held := by
  funext k
  cases k with
  | rx c' r => exact rx_same (row_pc h) c' r
  | _ => rfl

omit [DecidableEq μ] in
theorem row_ethPkts {core : RxThread μ} {pc : RxAt μ} (h : pc.msgs=core.pc.msgs)
    (q : Fin n.cfg.ethTxQueues) (rr : Nat → BitVec 32) :
    (⟨pc,{core.arrays with ethPkts:=Function.update core.arrays.ethPkts q.val []},rr,
      core.rrVhost⟩ : RxThread μ).row=Function.update core.row (.eth q) [] := by
  funext r
  cases r with
  | vm v => rfl
  | eth q' =>
    by_cases hq : q'=q
    · subst hq
      simp [RxThread.row]
    · have hne : (Row.eth q' : Row n)≠.eth q := fun e => hq (Row.eth.inj e)
      have hval : q'.val≠q.val := fun e => hq (Fin.ext e)
      rw [Function.update_of_ne hne]
      exact Function.update_of_ne hval ..
  | msgs => exact congrArg arpMbufs h

omit [DecidableEq μ] in
theorem row_vmPkts {core : RxThread μ} {pc : RxAt μ} (h : pc.msgs=core.pc.msgs) (v : Vid)
    (rr : Vid → BitVec 32) :
    ((⟨pc,{core.arrays with vmPkts:=Function.update core.arrays.vmPkts v []},core.rrEth,rr⟩ :
      RxThread μ).row : Row n → List μ)=Function.update core.row (.vm v) [] := by
  funext r
  cases r with
  | vm u =>
    by_cases hu : u=v
    · subst hu
      simp [RxThread.row]
    · have hne : (Row.vm u : Row n)≠.vm v := fun e => hu (Row.vm.inj e)
      rw [Function.update_of_ne hne]
      exact Function.update_of_ne hu ..
  | eth q => rfl
  | msgs => exact congrArg arpMbufs h

omit [DecidableEq μ] in
theorem row_noMsgs (core : RxThread μ) :
    (({core with pc:=.poll} : RxThread μ).row : Row n → List μ)=
      Function.update core.row .msgs [] := by
  funext r
  cases r with
  | vm v => rfl
  | eth q => rfl
  | msgs => simp [RxThread.row,RxAt.msgs,arpMbufs,bucket]

/-- A round of the loop over the egress queues: nothing for the queue, or its packets are
divided between ring and pool. -/
theorem flushEth_cases {c : n.Rx} {congestion : Int} (h : s.flushEth c congestion=some t) :
    SameLogs s t ∧ t.tx=s.tx ∧ (t.held=s.held ∧ t.mem=s.mem ∨ ∃ q num rr,
      Handout s t (.rx c (.eth q)) [] (fun h =>
        give (.ethRing q) ((s.held (.rx c (.eth q))).take num) h++
          give .pool ((s.held (.rx c (.eth q))).drop num) h)
        ((s.held (.rx c (.eth q))).zip (ecnMarkPackets n.mark
          ((s.held (.rx c (.eth q))).map s.mem) congestion rr).1)) := by
  simp only [flushEth] at h
  split at h
  · next j dstVids msgs hpc =>
    split at h
    · next hj =>
      split at h
      · have h' := Option.some.inj h
        subst h'
        exact ⟨⟨rfl,rfl,rfl⟩,rfl,Or.inl ⟨held_pc (by rw [hpc]; rfl),rfl⟩⟩
      · have h' := Option.some.inj h
        subst h'
        refine ⟨⟨rfl,rfl,rfl⟩,rfl,Or.inr ⟨⟨j,hj⟩,room (s.ethRing ⟨j,hj⟩),(s.rx c).rrEth j,
          Handout.divide rfl ?_ rfl ?_⟩⟩
        · funext k
          cases k with
          | rx c' r =>
            simp only [give,Function.update_of_ne (show Holder.rx c' r≠.ethRing _ by simp),
              Function.update_of_ne (show Holder.rx c' r≠.pool by simp),List.append_nil]
            exact rx_row (row_ethPkts (by rw [hpc]; rfl) ⟨j,hj⟩ _) c' r
          | ethRing q =>
            by_cases hq : q=⟨j,hj⟩
            · subst hq
              simp [give,Dataplane.held,RxThread.row]
            · simp [give,Dataplane.held,hq]
          | pool => simp [give,Dataplane.held,RxThread.row]
          | _ => simp [give,Dataplane.held]
        · intro x hx
          exact (List.of_mem_zip hx).1
    · have h' := Option.some.inj h
      subst h'
      exact ⟨⟨rfl,rfl,rfl⟩,rfl,Or.inl ⟨held_pc (by rw [hpc]; rfl),rfl⟩⟩
  · cases h

/-- A round of the loop over dst_vids: its end, or a row is divided between ring and
nobody. -/
theorem flushVm_cases {c : n.Rx} {congestion : Int} (h : s.flushVm c congestion=some t) :
    SameLogs s t ∧ t.tx=s.tx ∧ (t.held=s.held ∧ t.mem=s.mem ∨ ∃ v num rr,
      Handout s t (.rx c (.vm v)) [] (fun h =>
        give (.vmRing v) ((s.held (.rx c (.vm v))).take num) h++
          give .lost ((s.held (.rx c (.vm v))).drop num) h)
        ((s.held (.rx c (.vm v))).zip (s.marked congestion rr (s.held (.rx c (.vm v))) c).1)) := by
  simp only [flushVm] at h
  split at h
  · next v vs msgs hpc =>
    split at h
    · have h' := Option.some.inj h
      subst h'
      exact ⟨⟨rfl,rfl,rfl⟩,rfl,Or.inl ⟨held_pc (by rw [hpc]; rfl),rfl⟩⟩
    · have h' := Option.some.inj h
      subst h'
      refine ⟨⟨rfl,rfl,rfl⟩,rfl,
        Or.inr ⟨v,room (s.vmRing v),(s.rx c).rrVhost v,Handout.divide rfl ?_ rfl ?_⟩⟩
      · funext k
        cases k with
        | rx c' r =>
          simp only [give,Function.update_of_ne (show Holder.rx c' r≠.vmRing _ by simp),
            Function.update_of_ne (show Holder.rx c' r≠.lost by simp),List.append_nil]
          exact rx_row (row_vmPkts (by rw [hpc]; rfl) v _) c' r
        | vmRing u =>
          by_cases hu : u=v
          · subst hu
            simp [give,Dataplane.held,RxThread.row]
          · simp [give,Dataplane.held,hu]
        | lost => simp [give,Dataplane.held,RxThread.row]
        | _ => simp [give,Dataplane.held]
      · intro x hx
        exact (List.of_mem_zip hx).1
  · next msgs hpc =>
    have h' := Option.some.inj h
    subst h'
    exact ⟨⟨rfl,rfl,rfl⟩,rfl,Or.inl ⟨held_pc (by rw [hpc]; rfl),rfl⟩⟩
  · cases h

/-- The requests among the messages are divided between slowpath_ring and nobody. -/
theorem flushSlow_cases {c : n.Rx} (h : s.flushSlow c=some t) :
    SameLogs s t ∧ t.tx=s.tx ∧ ∃ parts,(∀ k m,m∈parts k → k=.slowRing ∨ k=.lost) ∧
      Handout s t (.rx c .msgs) [] parts [] := by
  simp only [flushSlow] at h
  split at h
  · next msgs hpc =>
    have h' := Option.some.inj h
    subst h'
    refine ⟨⟨rfl,rfl,rfl⟩,rfl,fun k => give .slowRing (arpMbufs (msgs.take (room s.slowRing))) k++
      give .lost (arpMbufs (msgs.drop (room s.slowRing))) k,fun k m hm => ?_,?_,fun m => ?_,rfl,?_⟩
    · rcases List.mem_append.mp hm with hm | hm
      · exact Or.inl (mem_give hm).1
      · exact Or.inr (mem_give hm).1
    · funext k
      cases k with
      | rx c' r =>
        simp only [give,Function.update_of_ne (show Holder.rx c' r≠.slowRing by simp),
          Function.update_of_ne (show Holder.rx c' r≠.lost by simp),List.append_nil]
        exact rx_row (row_noMsgs (s.rx c)) c' r
      | slowRing => simp [give,Dataplane.held,arpMbufs_append]
      | lost => simp [give,Dataplane.held]
      | _ => simp [give,Dataplane.held]
    · have hall : s.held (.rx c .msgs)=arpMbufs msgs := by
        rw [Dataplane.held,RxThread.row,hpc]
        rfl
      rw [holders_append,holders_give,holders_give,hall,← List.count_append,arpMbufs_take_drop,
        List.count_nil,Nat.zero_add]
    · intro x hx
      cases hx
  · cases h

omit [DecidableEq μ] in
theorem everyVm_nil : everyVm (fun _ => ([] : List μ))=[] := by simp [everyVm]

omit [DecidableEq μ] in
theorem everyVm_only (v : Vid) (l : List μ) : everyVm (only v l)=l := by
  have hsplit : ∀ vs : List Vid,vs.Nodup → vs.flatMap (only v l)=if v∈vs then l else [] := by
    intro vs hn
    induction vs with
    | nil => simp
    | cons u vs ih =>
      obtain ⟨hu,hn'⟩ := List.nodup_cons.mp hn
      rw [List.flatMap_cons,ih hn']
      by_cases huv : u=v
      · subst huv
        simp [hu]
      · have hne : ¬v=u := fun e => huv e.symm
        simp [only_of_ne huv,hne]
  rw [everyVm,hsplit _ (List.nodup_finRange _),if_pos (List.mem_finRange v)]

omit [DecidableEq μ] in
theorem tx_line {c : Fin n.cfg.vhostTxCores} {core : TxCore μ} {v : Vid} {l : List μ}
    (h : core.line=Function.update (s.tx c).line v l) (c' : Fin n.cfg.vhostTxCores) (u : Vid) :
    (Function.update s.tx c core c').line u=Function.update s.held (.tx c v) l (.tx c' u) := by
  by_cases hc : c'=c
  · subst hc
    rw [Function.update_self,h]
    by_cases hu : u=v
    · subst hu
      simp
    · have hne : (Holder.tx c' u : Holder n)≠.tx c' v := fun e => hu (Holder.tx.inj e).2
      rw [Function.update_of_ne hu,Function.update_of_ne hne]
      rfl
  · have hne : (Holder.tx c' u : Holder n)≠.tx c v := fun e => hc (Holder.tx.inj e).1
    rw [Function.update_of_ne hc,Function.update_of_ne hne]
    rfl

omit [DecidableEq μ] in
/-- A step of a vhost_tx core without an offer that leaves the rings alone. -/
theorem held_txQuiet {c : Fin n.cfg.vhostTxCores} {core : TxCore μ} {delivered : List (Vid × Data)}
    (h : core.line=(s.tx c).line) : ({s with
      pool:=s.pool++everyVm (fun _ => [])
      tx:=Function.update s.tx c core
      delivered:=delivered} : Dataplane n μ).held=s.held := by
  funext k
  cases k with
  | tx c' u =>
    have hline : core.line=Function.update (s.tx c).line u ((s.tx c).line u) := by
      rw [h,Function.update_eq_self]
    have hrow := tx_line hline c' u
    rw [show (s.tx c).line u=s.held (.tx c u) from rfl,Function.update_eq_self] at hrow
    exact hrow
  | pool =>
    change s.pool++everyVm (fun _ => [])=s.pool
    rw [everyVm_nil,List.append_nil]
  | _ => rfl

/-- An offer: what is freed goes to the pool, the rest stays with the core. -/
theorem txOffer_handout {c : Fin n.cfg.vhostTxCores} {core : TxCore μ} {v : Vid}
    {freed left : List μ} {delivered : List (Vid × Data)} (hline : (s.tx c).line v=freed++left)
    (h : core.line=Function.update (s.tx c).line v left) : Handout s {s with
      pool:=s.pool++everyVm (only v freed)
      tx:=Function.update s.tx c core
      delivered:=delivered} (.tx c v) left (give .pool freed) [] := by
  refine Handout.pass (.of_eq hline) ?_ rfl (fun x hx => by cases hx)
  funext k
  cases k with
  | tx c' u =>
    simp only [give,Function.update_of_ne (show Holder.tx c' u≠.pool by simp),List.append_nil]
    exact tx_line h c' u
  | pool => simp [give,Dataplane.held,everyVm_only]
  | _ => simp [give,Dataplane.held]

omit [DecidableEq μ] in
theorem offer_line {core : TxCore μ} {v : Vid} (hheld : ∀ u,u≠v → core.held u=[])
    (slot : TxSlot μ) (todo : List Vid) :
    (⟨.loop todo,Function.update core.slot v slot⟩ : TxCore μ).line=
      Function.update core.line v slot.retry := by
  funext u
  by_cases hu : u=v
  · subst hu
    simp [TxCore.line,TxCore.held]
  · change (Function.update core.slot v slot u).retry++[]=_
    rw [Function.update_of_ne hu,Function.update_of_ne hu,TxCore.line,hheld u hu]

omit [DecidableEq μ] in
/-- The core retains nothing for the VM, so the burst is all it has for it. -/
theorem burst_line {core : TxCore μ} {v : Vid} {todo rest : List Vid} (hpc : core.pc=.loop todo)
    (hretry : (core.slot v).retry=[]) (pkts : List μ) :
    (⟨.send v pkts rest,core.slot⟩ : TxCore μ).line=
      Function.update core.line v (core.line v++pkts) := by
  funext u
  by_cases hu : u=v
  · subst hu
    simp [TxCore.line,TxCore.held,hretry,hpc]
  · simp [TxCore.line,TxCore.held,hpc,only_of_ne hu,hu]

/-- A step of a vhost_tx core: nothing moves, a burst leaves its ring, or packets of the core
are freed. -/
theorem vhostTx_cases {c : Fin n.cfg.vhostTxCores} {plan : List Vid} {a : TxAct}
    (hs : (s.tx c).Single) (h : s.vhostTx c plan a=some t) :
    t.held=s.held ∧ t.mem=s.mem ∨
    (∃ v left part,Handout s t (.vmRing v) left (give (.tx c v) part) []) ∨
    ∃ v left part,Handout s t (.tx c v) left (give .pool part) [] := by
  obtain ⟨o,ho,ht⟩ := Option.map_eq_some_iff.mp h
  subst ht
  cases a with
  | load =>
    simp only [TxCore.step] at ho
    split at ho
    · next hpc =>
      have ho' := Option.some.inj ho
      subst ho'
      refine Or.inl ⟨held_txQuiet ?_,rfl⟩
      funext u
      simp only [TxCore.line,TxCore.held,TxCore.quiet,hpc]
    · cases ho
  | visit start now ret =>
    simp only [TxCore.step] at ho
    split at ho
    · next v todo hpc =>
      have ho' := Option.some.inj ho
      subst ho'
      have hheld : ∀ u,(s.tx c).held u=[] := fun u => by rw [TxCore.held,hpc]
      rcases (s.tx c).serve_cases s.vmRing start now ret v todo with he | ⟨-,hretry,-,he⟩ | ⟨-,he⟩
      · rw [he]
        refine Or.inl ⟨held_txQuiet ?_,rfl⟩
        funext u
        simp only [TxCore.line,TxCore.held,TxCore.quiet,hpc]
      · rw [he]
        refine Or.inr (Or.inl ⟨v,(s.vmRing v).drop maxPktBurst,(s.vmRing v).take maxPktBurst,?_⟩)
        refine Handout.pass (.of_eq (List.take_append_drop ..).symm) ?_ rfl
          (fun x hx => by cases hx)
        funext k
        cases k with
        | tx c' u =>
          rw [Function.update_of_ne (by simp)]
          apply (tx_line (burst_line hpc hretry _) c' u).trans
          by_cases hk : (Holder.tx c' u : Holder n)=.tx c v
          · rw [hk,Function.update_self,give,Function.update_self]
            rfl
          · rw [Function.update_of_ne hk,give,Function.update_of_ne hk,List.append_nil]
        | vmRing u =>
          by_cases hu : u=v
          · subst hu
            simp [give,Dataplane.held,TxCore.quiet]
          · simp [give,Dataplane.held,TxCore.quiet,hu]
        | pool => simp [give,Dataplane.held,TxCore.quiet,everyVm_nil]
        | _ => simp [give,Dataplane.held]
      · rw [he]
        refine Or.inr (Or.inr ⟨v,_,_,txOffer_handout ?_ (offer_line (fun u _ => hheld u) _ todo)⟩)
        rw [vhostResend_freed,vhostResend_retry,TxCore.line,hheld v]
    · cases ho
  | send now ret =>
    simp only [TxCore.step] at ho
    split at ho
    · next v pkts todo hpc =>
      have ho' := Option.some.inj ho
      subst ho'
      have hheld : (s.tx c).held=only v pkts := by rw [TxCore.held,hpc]
      have hother : ∀ u,u≠v → (s.tx c).held u=[] := fun u hu => by rw [hheld,only_of_ne hu]
      refine Or.inr (Or.inr ⟨v,_,_,txOffer_handout ?_ (offer_line hother _ todo)⟩)
      rw [vhostSend_freed,TxCore.line,hheld,only_self]
      by_cases hp : pkts=[]
      · subst hp
        simp [vhostSend]
      · have hretry := hs v (by rw [hheld,only_self]; exact hp)
        rw [vhostSend_split now ret pkts _ hretry,hretry,List.nil_append]
    · cases ho

omit [DecidableEq μ] in
theorem vhostTx_delivered {c : Fin n.cfg.vhostTxCores} {plan : List Vid} {a : TxAct}
    (hs : (s.tx c).Single) (h : s.vhostTx c plan a=some t) :
    t.seen=s.seen ∧ t.sent=s.sent ∧ ∃ new,t.delivered=s.delivered++new ∧ ∀ x∈new,
      ∃ m,(m∈s.held (.tx c x.1) ∨ m∈s.held (.vmRing x.1)) ∧ x.2=s.mem m := by
  obtain ⟨o,ho,ht⟩ := Option.map_eq_some_iff.mp h
  subst ht
  have hstep := TxStep.of_step hs ho
  refine ⟨rfl,rfl,_,rfl,fun x hx => ?_⟩
  obtain ⟨v,-,hv⟩ := List.mem_flatMap.mp hx
  obtain ⟨m,hm,he⟩ := List.mem_map.mp hv
  subst he
  exact ⟨m,List.mem_append.mp (hstep.delivered_mem hm),rfl⟩

omit [DecidableEq μ] in
/-- Of two cores at one ring one has the burst as well as the ring. -/
theorem txRace_cases {c : Fin n.cfg.vhostTxCores} {start : Nat} (h : s.txRace c start=some t) :
    s.Contended c ∧ (s.tx c).next≠none ∧
    (∃ o,(s.tx c).step [] s.vmRing (.visit start start 0)=some o ∧
      t={s with tx:=Function.update s.tx c o.core}) ∧
    ∃ v part,part≠[] ∧ t.held=Function.update s.held (.tx c v) (s.held (.tx c v)++part) := by
  unfold txRace at h
  split at h
  · next hcont =>
    obtain ⟨o,ho,hsend⟩ := Option.bind_eq_some_iff.mp h
    have ho' := ho
    simp only [TxCore.step] at ho'
    split at ho'
    · next v todo hpc =>
      have hnext : (s.tx c).next≠none := by simp [TxCore.next,hpc]
      obtain rfl := Option.some.inj ho'
      obtain he | ⟨-,hretry,hne,he⟩ | ⟨-,he⟩ :=
        (s.tx c).serve_cases s.vmRing start start 0 v todo
      · rw [he] at hsend
        cases hsend
      · rw [he] at hsend ho
        obtain rfl := Option.some.inj hsend
        refine ⟨hcont,hnext,⟨_,ho,rfl⟩,v,(s.vmRing v).take maxPktBurst,hne,?_⟩
        funext k
        cases k with
        | tx c' u => exact tx_line (burst_line hpc hretry _) c' u
        | _ => rw [Function.update_of_ne (by simp)]; rfl
      · rw [he] at hsend
        cases hsend
    · cases ho'
  · cases h

omit [DecidableEq μ] in
theorem ethTx_held {c : Fin n.ethTxCores} {pc : EgressAt n.cfg.ethTxQueues μ}
    {q : Fin n.cfg.ethTxQueues} {l : List μ}
    (h : pc.held=Function.update (s.ethTx c).held q l) (c' : Fin n.ethTxCores)
    (q' : Fin n.cfg.ethTxQueues) : (Function.update s.ethTx c pc c').held q'=
      Function.update s.held (.ethTx c q) l (.ethTx c' q') := by
  by_cases hc : c'=c
  · subst hc
    rw [Function.update_self,h]
    by_cases hq : q'=q
    · subst hq
      simp
    · have hne : (Holder.ethTx c' q' : Holder n)≠.ethTx c' q := fun e => hq (Holder.ethTx.inj e).2
      rw [Function.update_of_ne hq,Function.update_of_ne hne]
      rfl
  · have hne : (Holder.ethTx c' q' : Holder n)≠.ethTx c q := fun e => hc (Holder.ethTx.inj e).1
    rw [Function.update_of_ne hc,Function.update_of_ne hne]
    rfl

omit [DecidableEq μ] in
theorem held_ethTxHead {c : Fin n.ethTxCores} {i j : Nat} (h : s.ethTx c=.head i) :
    ({s with ethTx:=Function.update s.ethTx c (.head j)} : Dataplane n μ).held=s.held := by
  funext k
  cases k with
  | ethTx c' q =>
    change (Function.update s.ethTx c (.head j) c').held q=(s.ethTx c').held q
    by_cases hc : c'=c
    · subst hc
      rw [Function.update_self,h]
      rfl
    · rw [Function.update_of_ne hc]
  | _ => rfl

omit [DecidableEq μ] in
theorem orHead_held {queues : Nat} (cores : Nat) (q : Fin queues) (pkts : List μ)
    {pc : EgressAt queues μ} (h : pc.held=Function.update (fun _ => []) q pkts) :
    (EgressAt.orHead cores q pkts pc).held=Function.update (fun _ => []) q pkts := by
  unfold EgressAt.orHead
  split
  · next he =>
    rw [List.isEmpty_iff.mp he]
    exact (Function.update_eq_self q (fun _ => ([] : List μ))).symm
  · exact h

/-- eth_tx_loop dequeues nothing, or a burst whose headers it rewrites. -/
theorem dequeue_cases {c : Fin n.ethTxCores} (h : s.dequeue c=some t) :
    SameLogs s t ∧ t.tx=s.tx ∧ (t.held=s.held ∧ t.mem=s.mem ∨ ∃ q,
      Handout s t (.ethRing q) ((s.ethRing q).drop maxPktBurst)
        (give (.ethTx c q) ((s.ethRing q).take maxPktBurst))
        (((s.ethRing q).take maxPktBurst).map fun m => (m,n.txHeader (s.mem m)))) := by
  simp only [dequeue] at h
  split at h
  · next i hpc =>
    split at h
    · next hi =>
      split at h
      · have h' := Option.some.inj h
        subst h'
        exact ⟨⟨rfl,rfl,rfl⟩,rfl,Or.inl ⟨held_ethTxHead hpc,rfl⟩⟩
      · have h' := Option.some.inj h
        subst h'
        refine ⟨⟨rfl,rfl,rfl⟩,rfl,Or.inr ⟨⟨i,hi⟩,?_⟩⟩
        refine Handout.pass (.of_eq (List.take_append_drop ..).symm) ?_ rfl ?_
        · have hnone : ∀ q,(s.ethTx c).held q=[] := fun q => by rw [hpc]; rfl
          funext k
          cases k with
          | ethTx c' q =>
            rw [Function.update_of_ne (by simp)]
            have hheld : (.send ⟨i,hi⟩ ((s.ethRing ⟨i,hi⟩).take maxPktBurst) :
                EgressAt n.cfg.ethTxQueues μ).held=Function.update (s.ethTx c).held ⟨i,hi⟩
                  ((s.ethRing ⟨i,hi⟩).take maxPktBurst) := by
              rw [show (s.ethTx c).held=fun _ => [] from funext hnone]
              rfl
            apply (ethTx_held hheld c' q).trans
            by_cases hk : (Holder.ethTx c' q : Holder n)=.ethTx c ⟨i,hi⟩
            · rw [hk,Function.update_self,give,Function.update_self]
              change _=(s.ethTx c).held _++_
              rw [hnone,List.nil_append]
            · rw [Function.update_of_ne hk,give,Function.update_of_ne hk,List.append_nil]
          | ethRing q =>
            by_cases hq : q=⟨i,hi⟩
            · subst hq
              simp [give,Dataplane.held]
            · simp [give,Dataplane.held,hq]
          | _ => simp [give,Dataplane.held]
        · intro x hx
          obtain ⟨m,hm,he⟩ := List.mem_map.mp hx
          subst he
          exact List.mem_of_mem_take hm
    · cases h
  · cases h

theorem ethTx_pass {c : Fin n.ethTxCores} {q : Fin n.cfg.ethTxQueues} {pkts part left : List μ}
    {h : Holder n} {pc : EgressAt n.cfg.ethTxQueues μ}
    (hpc : (s.ethTx c).held=Function.update (fun _ => []) q pkts) (hsplit : pkts.Perm (part++left))
    (hpc' : pc.held=Function.update (fun _ => []) q left)
    (ht : ∀ k,(∀ c' q',k≠.ethTx c' q') → t.held k=s.held k++give h part k)
    (hh : ∀ c' q',h≠.ethTx c' q') (htx : t.ethTx=Function.update s.ethTx c pc)
    (hmem : t.mem=s.mem) : Handout s t (.ethTx c q) left (give h part) [] := by
  refine Handout.pass ?_ ?_ hmem (fun x hx => by cases hx)
  · change ((s.ethTx c).held q).Perm _
    rw [hpc,Function.update_self]
    exact hsplit
  · have hheld : pc.held=Function.update (s.ethTx c).held q left := by
      rw [hpc',hpc,Function.update_idem]
    funext k
    cases k with
    | ethTx c' q' =>
      rw [give,Function.update_of_ne (hh c' q').symm,List.append_nil]
      change (t.ethTx c').held q'=_
      rw [htx]
      exact ethTx_held hheld c' q'
    | _ => rw [ht _ (by simp),Function.update_of_ne (by simp)]

theorem txBurst_cases {c : Fin n.ethTxCores} {num : Nat} (h : s.txBurst c num=some t) :
    t.seen=s.seen ∧ t.delivered=s.delivered ∧ t.tx=s.tx ∧ ∃ q pkts,
      s.ethTx c=.send q pkts ∧ num ≤ pkts.length ∧
      t.sent=s.sent++(pkts.take num).map (fun m => (q,s.mem m)) ∧
      Handout s t (.ethTx c q) (pkts.drop num) (give (.nic q) (pkts.take num)) [] := by
  simp only [txBurst] at h
  split at h
  · next q pkts hpc =>
    split at h
    · next hnum =>
      have h' := Option.some.inj h
      subst h'
      refine ⟨rfl,rfl,rfl,q,pkts,hpc,hnum,rfl,ethTx_pass (by rw [hpc]; rfl)
        (.of_eq (List.take_append_drop ..).symm) (orHead_held _ _ _ rfl) (fun k hk => ?_)
        (by simp) rfl rfl⟩
      cases k with
      | ethTx c' q' => exact absurd rfl (hk c' q')
      | nic q' =>
        by_cases hq : q'=q
        · subst hq
          simp [give,Dataplane.held]
        · simp [give,Dataplane.held,hq]
      | _ => simp [give,Dataplane.held]
    · cases h
  · cases h

theorem requeue_cases {c : Fin n.ethTxCores} (h : s.requeue c=some t) :
    SameLogs s t ∧ t.tx=s.tx ∧ ∃ q pkts,s.ethTx c=.unsent q pkts ∧
      Handout s t (.ethTx c q) (pkts.drop (room (s.ethRing q)))
        (give (.ethRing q) (pkts.take (room (s.ethRing q)))) [] := by
  simp only [requeue] at h
  split at h
  · next q pkts hpc =>
    have h' := Option.some.inj h
    subst h'
    refine ⟨⟨rfl,rfl,rfl⟩,rfl,q,pkts,hpc,ethTx_pass (by rw [hpc]; rfl)
      (.of_eq (List.take_append_drop ..).symm) (orHead_held _ _ _ rfl) (fun k hk => ?_)
      (by simp) rfl rfl⟩
    cases k with
    | ethTx c' q' => exact absurd rfl (hk c' q')
    | ethRing q' =>
      by_cases hq : q'=q
      · subst hq
        simp [give,Dataplane.held]
      · simp [give,Dataplane.held,hq]
    | _ => simp [give,Dataplane.held]
  · cases h

theorem freeOne_cases {c : Fin n.ethTxCores} (h : s.freeOne c=some t) :
    SameLogs s t ∧ t.tx=s.tx ∧ ∃ q left part,
      Handout s t (.ethTx c q) left (give .pool part) [] := by
  simp only [freeOne] at h
  split at h
  · next q pkts hpc =>
    obtain ⟨m,hm,ht⟩ := Option.map_eq_some_iff.mp h
    subst ht
    have hsplit : pkts.Perm ([m]++pkts.dropLast) := by
      have hlast := List.dropLast_append_getLast? m hm
      nth_rewrite 1 [← hlast]
      exact List.perm_append_comm
    refine ⟨⟨rfl,rfl,rfl⟩,rfl,q,pkts.dropLast,[m],ethTx_pass (by rw [hpc]; rfl) hsplit
      (orHead_held _ _ _ rfl) (fun k hk => ?_) (by simp) rfl rfl⟩
    cases k with
    | ethTx c' q' => exact absurd rfl (hk c' q')
    | pool => simp [give,Dataplane.held]
    | _ => simp [give,Dataplane.held]
  · cases h

/-- The slow path drops a message without an owner's duty, leaves a request to nobody, or
writes the reply into the request. -/
theorem slowNext_cases {present : Bool} (h : s.slowNext present=some t) :
    SameLogs s t ∧ t.tx=s.tx ∧ (t.held=s.held ∧ t.mem=s.mem ∨
      (∃ left m,Handout s t .slow left (give .lost [m]) []) ∨
      ∃ m d,Handout s t .slow s.slow.held (fun _ => []) [(m,d)]) := by
  simp only [slowNext] at h
  split at h
  · next x batch hpc =>
    split at h
    · next hreason =>
      have h' := Option.some.inj h
      subst h'
      refine ⟨⟨rfl,rfl,rfl⟩,rfl,Or.inl ⟨?_,rfl⟩⟩
      funext k
      cases k with
      | slow =>
        change SlowAt.held (.next batch)=s.slow.held
        rw [hpc]
        simp [SlowAt.held,arpMbufs,bucket,hreason]
      | _ => rfl
    · next hreason =>
      have hheld : s.slow.held=x.mbuf::arpMbufs batch := by
        rw [hpc]
        simp [SlowAt.held,arpMbufs,bucket,hreason]
      split at h
      · have h' := Option.some.inj h
        subst h'
        refine ⟨⟨rfl,rfl,rfl⟩,rfl,Or.inr (Or.inl ⟨arpMbufs batch,x.mbuf,?_⟩)⟩
        refine Handout.pass (.of_eq hheld) ?_ rfl (fun y hy => by cases hy)
        funext k
        cases k with
        | slow => simp [give,Dataplane.held,SlowAt.held]
        | lost => simp [give,Dataplane.held]
        | _ => simp [give,Dataplane.held]
      · have h' := Option.some.inj h
        subst h'
        refine ⟨⟨rfl,rfl,rfl⟩,rfl,Or.inr (Or.inr ⟨x.mbuf,_,?_,fun m => ?_,rfl,fun y hy => ?_⟩)⟩
        · funext k
          cases k with
          | slow =>
            rw [Function.update_self,List.append_nil,hheld]
            change SlowAt.held _=_
            split
            · rfl
            · rfl
          | _ => simp [Dataplane.held]
        · simp [holders,Dataplane.held]
        · rw [List.mem_singleton] at hy
          subst hy
          change x.mbuf∈s.slow.held
          rw [hheld]
          exact List.mem_cons_self
  · cases h

omit [DecidableEq μ] in
/-- The enqueue of a reply: without room nothing happens, with room the ring has the mbuf
besides the slow path. -/
theorem slowEnqueue_cases (h : s.slowEnqueue=some t) : SameLogs s t ∧ t.tx=s.tx ∧ t.mem=s.mem ∧
    ∃ vid m batch,s.slow=.enqueue vid m batch ∧
      (ringCap ≤ (s.vmRing vid).length ∧ t.held=s.held ∨
        (s.vmRing vid).length < ringCap ∧
          t.held=Function.update s.held (.vmRing vid) (s.vmRing vid++[m])) := by
  simp only [slowEnqueue] at h
  split at h
  · next vid m batch hpc =>
    split at h
    · next hroom =>
      have h' := Option.some.inj h
      subst h'
      refine ⟨⟨rfl,rfl,rfl⟩,rfl,rfl,vid,m,batch,hpc,Or.inr ⟨hroom,?_⟩⟩
      funext k
      cases k with
      | vmRing v =>
        by_cases hv : v=vid
        · subst hv
          simp [Dataplane.held]
        · simp [Dataplane.held,hv]
      | slow => simp [Dataplane.held,SlowAt.held,hpc]
      | _ => simp [Dataplane.held]
    · next hroom =>
      have h' := Option.some.inj h
      subst h'
      refine ⟨⟨rfl,rfl,rfl⟩,rfl,rfl,vid,m,batch,hpc,Or.inl ⟨Nat.le_of_not_lt hroom,?_⟩⟩
      funext k
      cases k with
      | slow => simp [Dataplane.held,SlowAt.held,hpc]
      | _ => rfl
  · cases h

/-- process_arp_req finds no room for its reply. -/
def replyRefused (s : Dataplane n μ) : DataAct n μ → Bool
  | .slowEnqueue =>
    match s.slow with
    | .enqueue vid _ _ => decide (ringCap ≤ (s.vmRing vid).length)
    | _ => true
  | _ => true

def NoReply (s : Dataplane n μ) (a : DataAct n μ) : Prop := s.replyRefused a=true

instance (s : Dataplane n μ) (a : DataAct n μ) : Decidable (NoReply s a) :=
  inferInstanceAs (Decidable (_=true))

/-- No two vhost_tx cores dequeue from one ring at the same time. -/
def NoRace (_ : Dataplane n μ) : DataAct n μ → Prop
  | .txRace _ _ => False
  | _ => True

instance (s : Dataplane n μ) : (a : DataAct n μ) → Decidable (NoRace s a)
  | .txRace _ _ => isFalse id
  | .rxPoll .. | .ethPoll .. | .flushEth .. | .flushVm .. | .flushSlow _ | .tx .. | .again _
  | .dequeue _ | .txBurst .. | .requeue _ | .freeOne _ | .nicDone _ | .slowDequeue | .slowNext _
  | .slowEnqueue | .slowFree => isTrue trivial

def Sole (s : Dataplane n μ) (a : DataAct n μ) : Prop := NoReply s a ∧ NoRace s a

instance (s : Dataplane n μ) (a : DataAct n μ) : Decidable (Sole s a) :=
  inferInstanceAs (Decidable (_ ∧ _))

/-- Each mbuf is held as often as it was in the pool at start, which is once: by the pool, a
thread, a ring, the NIC, or nobody. -/
def Owned (pool : List μ) (s : Dataplane n μ) : Prop := ∀ m,holders s.held m=pool.count m

theorem nicDone_cases {q : Fin n.cfg.ethTxQueues} (h : s.step (.nicDone q)=some t) :
    SameLogs s t ∧ t.tx=s.tx ∧ ∃ left part,Handout s t (.nic q) left (give .pool part) [] := by
  simp only [step] at h
  split at h
  · next m rest hnic =>
    have h' := Option.some.inj h
    subst h'
    refine ⟨⟨rfl,rfl,rfl⟩,rfl,rest,[m],?_⟩
    refine Handout.pass (.of_eq hnic) ?_ rfl (fun x hx => by cases hx)
    funext k
    cases k with
    | nic q' =>
      by_cases hq : q'=q
      · subst hq
        simp [give,Dataplane.held]
      · simp [give,Dataplane.held,hq]
    | pool => simp [give,Dataplane.held]
    | _ => simp [give,Dataplane.held]
  · cases h

theorem slowDequeue_cases (h : s.step .slowDequeue=some t) :
    SameLogs s t ∧ t.tx=s.tx ∧ ∃ left part,Handout s t .slowRing left (give .slow part) [] := by
  simp only [step] at h
  split at h
  · next hpc =>
    have h' := Option.some.inj h
    subst h'
    refine ⟨⟨rfl,rfl,rfl⟩,rfl,arpMbufs (s.slowRing.drop maxPktBurst),
      arpMbufs (s.slowRing.take maxPktBurst),?_⟩
    refine Handout.pass (.of_eq (arpMbufs_take_drop ..).symm) ?_ rfl (fun x hx => by cases hx)
    funext k
    cases k with
    | slowRing => simp [give,Dataplane.held]
    | slow => simp [give,Dataplane.held,SlowAt.held,hpc,arpMbufs,bucket]
    | _ => simp [give,Dataplane.held]
  · cases h

theorem slowFree_cases (h : s.step .slowFree=some t) :
    SameLogs s t ∧ t.tx=s.tx ∧ ∃ left part,Handout s t .slow left (give .pool part) [] := by
  simp only [step] at h
  split at h
  · next m batch hpc =>
    have h' := Option.some.inj h
    subst h'
    have hheld : s.slow.held=[m]++arpMbufs batch := by
      rw [hpc]
      rfl
    refine ⟨⟨rfl,rfl,rfl⟩,rfl,arpMbufs batch,[m],?_⟩
    refine Handout.pass (.of_eq hheld) ?_ rfl (fun x hx => by cases hx)
    funext k
    cases k with
    | slow => simp [give,Dataplane.held,SlowAt.held]
    | pool => simp [give,Dataplane.held]
    | _ => simp [give,Dataplane.held]
  · cases h

/-- What a step does to the vhost_tx cores: nothing, or one of them takes a step of its own. -/
theorem step_tx {a : DataAct n μ} (h : s.step a=some t) : t.tx=s.tx ∨ ∃ c plan x o,
    (x=.load → a=.tx c plan .load) ∧ (s.tx c).step plan s.vmRing x=some o ∧
      t.tx=Function.update s.tx c o.core := by
  cases a with
  | rxPoll c vid learning pkts => exact Or.inl (rxPoll_cases h).2.2.2.2.1
  | ethPoll c queue snap pkts => exact Or.inl (ethPoll_cases h).2.2.2.2.1
  | flushEth c congestion => exact Or.inl (flushEth_cases h).2.1
  | flushVm c congestion => exact Or.inl (flushVm_cases h).2.1
  | flushSlow c => exact Or.inl (flushSlow_cases h).2.1
  | tx c plan x =>
    obtain ⟨o,ho,rfl⟩ := Option.map_eq_some_iff.mp h
    exact Or.inr ⟨c,plan,x,o,fun hx => by rw [hx],ho,rfl⟩
  | txRace c start =>
    obtain ⟨-,-,⟨o,ho,rfl⟩,-⟩ := txRace_cases h
    refine Or.inr ⟨c,[],_,o,fun hx => ?_,ho,rfl⟩
    cases hx
  | again c =>
    simp only [step,again] at h
    split at h
    · split at h
      · cases h
      · obtain rfl := Option.some.inj h
        exact Or.inl rfl
    · cases h
  | dequeue c => exact Or.inl (dequeue_cases h).2.1
  | txBurst c num => exact Or.inl (txBurst_cases h).2.2.1
  | requeue c => exact Or.inl (requeue_cases h).2.1
  | freeOne c => exact Or.inl (freeOne_cases h).2.1
  | nicDone q => exact Or.inl (nicDone_cases h).2.1
  | slowDequeue => exact Or.inl (slowDequeue_cases h).2.1
  | slowNext present => exact Or.inl (slowNext_cases h).2.1
  | slowEnqueue => exact Or.inl (slowEnqueue_cases h).2.1
  | slowFree => exact Or.inl (slowFree_cases h).2.1

theorem step_single {a : DataAct n μ} (hs : ∀ c,(s.tx c).Single) (h : s.step a=some t) :
    ∀ c,(t.tx c).Single := by
  obtain htx | ⟨c,plan,x,o,-,ho,htx⟩ := step_tx h
  · rw [htx]
    exact hs
  · rw [htx]
    exact (Function.forall_update_iff s.tx (p:=fun _ core => core.Single)).mpr
      ⟨(TxStep.of_step (hs c) ho).single,fun d _ => hs d⟩

/-- Whatever a step does, it hands out what one holder had; only a reply that a ring takes and
a burst that two cores dequeue are in two places then. -/
theorem step_handout {a : DataAct n μ} (hs : ∀ c,(s.tx c).Single) (h : s.step a=some t) :
    (∃ p left parts stores,Handout s t p left parts stores) ∧ Sole s a ∨
      ∃ k part,part≠[] ∧ ¬Sole s a ∧ t.held=Function.update s.held k (s.held k++part) := by
  have hquiet : t.held=s.held ∧ t.mem=s.mem → ∃ p left parts stores,
      Handout s t p left parts stores := fun hq => ⟨_,_,_,_,Handout.quiet hq.1 hq.2⟩
  cases a with
  | rxPoll c vid learning pkts =>
    obtain ⟨-,-,-,-,-,ho⟩ := rxPoll_cases h
    exact Or.inl ⟨⟨_,_,_,_,ho⟩,rfl,trivial⟩
  | ethPoll c queue snap pkts =>
    obtain ⟨-,-,-,-,-,ho⟩ := ethPoll_cases h
    exact Or.inl ⟨⟨_,_,_,_,ho⟩,rfl,trivial⟩
  | flushEth c congestion =>
    obtain ⟨-,-,hq | ⟨q,num,rr,ho⟩⟩ := flushEth_cases h
    · exact Or.inl ⟨hquiet hq,rfl,trivial⟩
    · exact Or.inl ⟨⟨_,_,_,_,ho⟩,rfl,trivial⟩
  | flushVm c congestion =>
    obtain ⟨-,-,hq | ⟨v,num,rr,ho⟩⟩ := flushVm_cases h
    · exact Or.inl ⟨hquiet hq,rfl,trivial⟩
    · exact Or.inl ⟨⟨_,_,_,_,ho⟩,rfl,trivial⟩
  | flushSlow c =>
    obtain ⟨-,-,parts,-,ho⟩ := flushSlow_cases h
    exact Or.inl ⟨⟨_,_,_,_,ho⟩,rfl,trivial⟩
  | tx c plan a =>
    refine Or.inl ⟨?_,rfl,trivial⟩
    obtain hq | ⟨v,left,part,ho⟩ | ⟨v,left,part,ho⟩ := vhostTx_cases (hs c) h
    · exact hquiet hq
    · exact ⟨_,_,_,_,ho⟩
    · exact ⟨_,_,_,_,ho⟩
  | txRace c start =>
    obtain ⟨-,-,-,v,part,hne,hheld⟩ := txRace_cases h
    exact Or.inr ⟨_,part,hne,And.right,hheld⟩
  | again c =>
    simp only [step,again] at h
    split at h
    · next i hpc =>
      split at h
      · cases h
      · have h' := Option.some.inj h
        subst h'
        exact Or.inl ⟨hquiet ⟨held_ethTxHead hpc,rfl⟩,rfl,trivial⟩
    · cases h
  | dequeue c =>
    obtain ⟨-,-,hq | ⟨q,ho⟩⟩ := dequeue_cases h
    · exact Or.inl ⟨hquiet hq,rfl,trivial⟩
    · exact Or.inl ⟨⟨_,_,_,_,ho⟩,rfl,trivial⟩
  | txBurst c num =>
    obtain ⟨-,-,-,q,pkts,-,-,-,ho⟩ := txBurst_cases h
    exact Or.inl ⟨⟨_,_,_,_,ho⟩,rfl,trivial⟩
  | requeue c =>
    obtain ⟨-,-,q,pkts,-,ho⟩ := requeue_cases h
    exact Or.inl ⟨⟨_,_,_,_,ho⟩,rfl,trivial⟩
  | freeOne c =>
    obtain ⟨-,-,q,left,part,ho⟩ := freeOne_cases h
    exact Or.inl ⟨⟨_,_,_,_,ho⟩,rfl,trivial⟩
  | nicDone q =>
    obtain ⟨-,-,left,part,ho⟩ := nicDone_cases h
    exact Or.inl ⟨⟨_,_,_,_,ho⟩,rfl,trivial⟩
  | slowDequeue =>
    obtain ⟨-,-,left,part,ho⟩ := slowDequeue_cases h
    exact Or.inl ⟨⟨_,_,_,_,ho⟩,rfl,trivial⟩
  | slowNext present =>
    obtain ⟨-,-,hq | ⟨left,m,ho⟩ | ⟨m,d,ho⟩⟩ := slowNext_cases h
    · exact Or.inl ⟨hquiet hq,rfl,trivial⟩
    · exact Or.inl ⟨⟨_,_,_,_,ho⟩,rfl,trivial⟩
    · exact Or.inl ⟨⟨_,_,_,_,ho⟩,rfl,trivial⟩
  | slowEnqueue =>
    obtain ⟨-,-,hmem,vid,m,batch,hpc,⟨hfull,hq⟩ | ⟨hroom,hheld⟩⟩ := slowEnqueue_cases h
    · refine Or.inl ⟨hquiet ⟨hq,hmem⟩,?_,trivial⟩
      simp [NoReply,replyRefused,hpc,hfull]
    · refine Or.inr ⟨.vmRing vid,[m],List.cons_ne_nil _ _,fun hg => ?_,hheld⟩
      have hg' := hg.1
      simp [NoReply,replyRefused,hpc] at hg'
      omega
  | slowFree =>
    obtain ⟨-,-,left,part,ho⟩ := slowFree_cases h
    exact Or.inl ⟨⟨_,_,_,_,ho⟩,rfl,trivial⟩

omit [DecidableEq μ] in
theorem held_init (pool : List μ) (mem : μ → Data) : (init n pool mem).held=give .pool pool := by
  funext k
  cases k with
  | rx c r =>
    cases r with
    | vm v => simp [give,Dataplane.held,init,RxThread.init,RxThread.row,Carry.zero]
    | eth q => simp [give,Dataplane.held,init,RxThread.init,RxThread.row,Carry.zero]
    | msgs => simp [give,Dataplane.held,init,RxThread.init,RxThread.row,RxAt.msgs,arpMbufs,bucket]
  | tx c v => simp [give,Dataplane.held,init,TxCore.init,TxCore.line,TxCore.held,TxSlot.init]
  | slowRing => simp [give,Dataplane.held,init,arpMbufs,bucket]
  | slow => simp [give,Dataplane.held,init,SlowAt.held,arpMbufs,bucket]
  | _ => simp [give,Dataplane.held,init,EgressAt.held]

theorem owned_init (pool : List μ) (mem : μ → Data) : Owned pool (init n pool mem) := by
  intro m
  rw [held_init,holders_give]

/-- A vhost_tx core starts a round only with VMs that no other core has in its own. -/
def OneConsumer (s : Dataplane n μ) : DataAct n μ → Prop
  | .tx c plan .load => ∀ d,d≠c → ∀ v∈plan,v∉(s.tx d).todo
  | _ => True

instance (s : Dataplane n μ) : (a : DataAct n μ) → Decidable (OneConsumer s a)
  | .tx c plan .load => inferInstanceAs (Decidable (∀ d,d≠c → ∀ v∈plan,v∉(s.tx d).todo))
  | .tx _ _ (.visit ..) | .tx _ _ (.send ..) | .rxPoll .. | .ethPoll .. | .flushEth ..
  | .flushVm .. | .flushSlow _ | .txRace .. | .again _ | .dequeue _ | .txBurst .. | .requeue _
  | .freeOne _ | .nicDone _ | .slowDequeue | .slowNext _ | .slowEnqueue | .slowFree => isTrue trivial

def Apart (s : Dataplane n μ) : Prop := ∀ c d,c≠d → ∀ v∈(s.tx c).todo,v∉(s.tx d).todo

omit [DecidableEq μ] in
theorem apart_init (pool : List μ) (mem : μ → Data) : Apart (init n pool mem) :=
  fun _ _ _ _ hv => by cases hv

theorem Apart.step {a : DataAct n μ} (hs : Apart s) (hg : OneConsumer s a) (h : s.step a=some t) :
    Apart t := by
  obtain htx | ⟨c,plan,x,o,hload,ho,htx⟩ := step_tx h
  · unfold Apart
    rw [htx]
    exact hs
  · have hnew : ∀ d,d≠c → ∀ v∈o.core.todo,v∉(s.tx d).todo := by
      intro d hd v hv
      obtain ⟨hx,htodo⟩ | hsub := TxCore.step_todo ho
      · rw [hload hx] at hg
        exact hg d hd v (htodo ▸ hv)
      · exact hs c d hd.symm v (hsub hv)
    intro d e hde v hv hv'
    rw [htx] at hv hv'
    by_cases hd : d=c
    · subst hd
      rw [Function.update_self] at hv
      rw [Function.update_of_ne hde.symm] at hv'
      exact hnew e hde.symm v hv hv'
    · rw [Function.update_of_ne hd] at hv
      by_cases he : e=c
      · subst he
        rw [Function.update_self] at hv'
        exact hnew d hd v hv' hv
      · rw [Function.update_of_ne he] at hv'
        exact hs d e hde v hv hv'

theorem Apart.noRace {a : DataAct n μ} (hs : Apart s) (h : s.step a=some t) : NoRace s a := by
  cases a with
  | txRace c start =>
    obtain ⟨⟨d,hd,hnext⟩,hsome,-⟩ := txRace_cases h
    obtain ⟨v,hv⟩ := Option.ne_none_iff_exists'.mp hsome
    exact hs d c hd v (TxCore.mem_todo_of_next (hnext.trans hv)) (TxCore.mem_todo_of_next hv)
  | _ => trivial

/-- Over all threads of the dataplane and every interleaving of their steps, each mbuf stays
with one holder as long as no ring takes a reply of process_arp_req and no two vhost_tx cores
dequeue from one ring at the same time, and no longer. Cores whose rounds have no VM in common
never do the latter. -/
theorem one_owner_iff (n : Node) (pool : List μ) (mem : μ → Data) (as : List (DataAct n μ)) :
    (Visits step (Owned pool) (init n pool mem) as ↔
      Meets step (fun s a => NoReply s a ∧ NoRace s a) (init n pool mem) as) ∧
    (Meets step OneConsumer (init n pool mem) as → Meets step NoRace (init n pool mem) as) := by
  constructor
  · apply visits_iff_meets (I:=fun s : Dataplane n μ => ∀ c,(s.tx c).Single)
    · intro s t a hs _ _ h
      exact step_single hs h
    · intro s t a hs ho h
      obtain ⟨⟨p,left,parts,stores,hout⟩,hg⟩ | ⟨k,part,hne,hg,hheld⟩ := step_handout hs h
      · have hkeep : Owned pool t := fun m => (hout.conserved m).trans (ho m)
        exact ⟨fun _ => hg,fun _ => hkeep⟩
      · refine ⟨fun ht => ?_,fun hg' => absurd hg' hg⟩
        obtain ⟨m,hm⟩ := List.exists_mem_of_ne_nil _ hne
        have hu := holders_update (f:=s.held) (p:=k) rfl (s.held k++part) m
        have hpos := List.count_pos_iff.mpr hm
        have hs := ho m
        have hm' := ht m
        rw [← hheld,List.count_append] at hu
        omega
    · exact fun _ => TxCore.init_single
    · exact owned_init pool mem
  · apply Meets.of_invariant (I:=Apart) (apart_init pool mem)
    · exact fun hs hg h => hs.step hg h
    · exact fun hs _ h => hs.noRace h

/-- A node for concrete runs, with one eth_tx core. -/
def relayNode : Node := ⟨smallConfig,fun _ _ => 0,.little,1,fun _ => 1,fun _ => 3⟩

/-- Both vhost_tx cores have VM 1 in their plans and get the same mbuf. -/
example :
    let one : Fin 1 := ⟨0,Nat.zero_lt_one⟩
    let c : relayNode.Rx := .inl one
    let core (i : Nat) (h : i < 2) : Fin 2 := ⟨i,h⟩
    (run step (init relayNode [7] fun _ _ => 0) [
      .rxPoll one 0 false [⟨7,ipv4Frame 2 3,Function.update initRouteTable 3 1⟩],
      .flushEth c 0,.flushEth c 0,.flushVm c 0,
      .tx (core 0 Nat.two_pos) [1] .load,.tx (core 1 Nat.one_lt_two) [1] .load,
      .txRace (core 0 Nat.two_pos) 0,.tx (core 1 Nat.one_lt_two) [] (.visit 0 0 0),
      .tx (core 0 Nat.two_pos) [] (.send 0 1),.tx (core 1 Nat.one_lt_two) [] (.send 0 1)]).map
        (fun s => (s.delivered.map Prod.fst,s.pool))=some ([1,1],[7,7]) := by decide +kernel

end Dataplane

end Umanet
