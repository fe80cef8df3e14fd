import Umanet.Framework.CasTable
import Umanet.Vhost.State

namespace Umanet

open Framework

inductive DevOp
  | new (v : Vid) (d : DevPtr)
  | destroy (v : Vid)
  deriving DecidableEq

/-- An execution of new_device or destroy_device. -/
structure DevExec where
  op : DevOp
  tag : Nat
  deriving DecidableEq

/-- The tests of the two operations: new_device returns when `num` has reached MAX_VHOSTS,
destroy_device when the entry is NULL. Both test the published list first and the list they
copy in each round again. -/
def DevOp.allowed (L : VdevList) : DevOp → Bool
  | .new _ _ => decide (L.num < maxVhosts)
  | .destroy v => L.live v

def DevOp.edit (L : VdevList) : DevOp → VdevList
  | .new v d => L.insert v d
  | .destroy v => L.remove v

def DevOp.vid : DevOp → Vid
  | .new v _ => v
  | .destroy v => v

def DevOp.entry : DevOp → Option DevPtr
  | .new _ d => some d
  | .destroy _ => none

/-- `vdev_list` with the edits of device.c. That destroy_device returns for a device that is
not in DEVICE_SAFE_REMOVE is `giveUp`. -/
def deviceSpec : CasSpec DevExec VdevList where
  enter o L := o.op.allowed L
  fits o L := o.op.allowed L
  apply o L := o.op.edit L

namespace DeviceTable

open CasTable

def lastOn (v : Vid) (log : List DevExec) : Option DevOp :=
  (log.map DevExec.op).reverse.find? (·.vid=v)

theorem edit_vdevs (L : VdevList) (op : DevOp) (v : Vid) :
    (op.edit L).vdevs v=if op.vid=v then op.entry else L.vdevs v := by
  cases op with
  | new u d => simp [DevOp.edit,DevOp.vid,DevOp.entry,VdevList.insert,Function.update_apply,eq_comm]
  | destroy u => simp [DevOp.edit,DevOp.vid,DevOp.entry,VdevList.remove,Function.update_apply,eq_comm]

/-- An entry is what the last operation on its vid has left there. -/
theorem replay_vdevs (L₀ : VdevList) (log : List DevExec) (v : Vid) :
    (deviceSpec.replay L₀ log).vdevs v=(lastOn v log).elim (L₀.vdevs v) DevOp.entry := by
  induction log using List.reverseRecOn with
  | nil => rfl
  | append_singleton log o ih =>
    rw [CasSpec.replay_snoc]
    change (o.op.edit _).vdevs v=_
    rw [edit_vdevs,lastOn,List.map_append,List.reverse_append]
    by_cases hv : o.op.vid=v
    · simp [hv]
    · simpa [hv,lastOn] using ih

/-- new_device is called with a vid that is neither in the table nor that of another
new_device in progress, destroy_device with one that is in the table. -/
def Proper (s : CasTable DevExec VdevList) : CasAct DevExec VdevList → Prop
  | .call ⟨.new v _,_⟩ => s.current.live v=false ∧
      ∀ o d,Busy (s.phase o) → o.op≠.new v d
  | .call ⟨.destroy v,_⟩ => s.current.live v=true
  | _ => True

structure Inv (L₀ : VdevList) (s : CasTable DevExec VdevList) : Prop where
  cas : CasTable.Inv deviceSpec L₀ s
  counted : s.current.Counted
  absent : ∀ o v d,Busy (s.phase o) → o.op=.new v d → s.current.live v=false
  distinct : ∀ o o' v d d',Busy (s.phase o) → Busy (s.phase o') → o.op=.new v d →
    o'.op=.new v d' → o=o'

variable {L₀ : VdevList} {s t : CasTable DevExec VdevList}

theorem init_inv (h₀ : L₀.Counted) : Inv L₀ (.init L₀) :=
  ⟨CasTable.init_inv deviceSpec L₀,h₀,fun _ _ _ hb => hb.elim,fun _ _ _ _ _ hb => hb.elim⟩

/-- An exchange that succeeds adds a vid that is not in the table or removes one that is. -/
theorem publish_inv (h : Inv L₀ s) (hcas : CasTable.Inv deviceSpec L₀ t) {o : DevExec}
    (hbusy : Busy (s.phase o)) (hfits : o.op.allowed s.current=true)
    (hcur : t.current=o.op.edit s.current) (hphase : t.phase=Function.update s.phase o .done) :
    Inv L₀ t := by
  have hother : ∀ o',Busy (t.phase o') → o'≠o ∧ Busy (s.phase o') := by
    intro o' hb
    rw [hphase] at hb
    by_cases ho : o'=o
    · subst ho
      rw [Function.update_self] at hb
      exact hb.elim
    · rw [Function.update_of_ne ho] at hb
      exact ⟨ho,hb⟩
  refine ⟨hcas,?_,fun o' v d hb hv => ?_,fun o₁ o₂ v d d' h₁ h₂ => ?_⟩
  · rw [hcur]
    cases hop : o.op with
    | new v d => exact VdevList.insert_counted h.counted (h.absent o v d hbusy hop) d
    | destroy v =>
      rw [hop] at hfits
      exact VdevList.remove_counted h.counted hfits
  · obtain ⟨ho,hb'⟩ := hother o' hb
    have habs := h.absent o' v d hb' hv
    rw [hcur]
    cases hop : o.op with
    | new u c =>
      have hne : v≠u := by
        rintro rfl
        exact ho (h.distinct o' o v d c hb' hbusy hv hop)
      change (s.current.insert u c).live v=false
      rw [VdevList.live_insert,if_neg hne]
      exact habs
    | destroy u =>
      change (s.current.remove u).live v=false
      rw [VdevList.live_remove]
      split
      · rfl
      · exact habs
  · exact h.distinct o₁ o₂ v d d' (hother o₁ h₁).2 (hother o₂ h₂).2

theorem step_inv (h : Inv L₀ s) {x : CasAct DevExec VdevList} (hg : Proper s x)
    (ht : s.step deviceSpec x=some t) : Inv L₀ t := by
  obtain ⟨hcas,heff⟩ := step_effect h.cas ht
  rcases heff with ⟨o,hbusy,hfits,hcur,hphase⟩ | ⟨hcur,hbusy⟩
  · exact publish_inv h hcas hbusy hfits hcur hphase
  · have hcall : ∀ o v d,x=.call o → o.op=.new v d → s.current.live v=false ∧
        ∀ o' d',Busy (s.phase o') → o'.op≠.new v d' := by
      rintro ⟨op,tag⟩ v d rfl hop
      subst hop
      exact hg
    refine ⟨hcas,hcur ▸ h.counted,fun o v d hb hv => ?_,fun o o' v d d' hb hb' hv hv' => ?_⟩
    · rw [hcur]
      rcases hbusy o hb with hs | hx
      · exact h.absent o v d hs hv
      · exact (hcall o v d hx hv).1
    · rcases hbusy o hb with hs | hx
      · rcases hbusy o' hb' with hs' | hx'
        · exact h.distinct o o' v d d' hs hs' hv hv'
        · exact absurd hv ((hcall o' v d' hx' hv').2 o d hs)
      · rcases hbusy o' hb' with hs' | hx'
        · exact absurd hv' ((hcall o v d hx hv).2 o' d' hs')
        · exact CasAct.call.inj (hx.symm.trans hx')

/-- Every published list is the initial one with the edits of the operations whose exchange
has succeeded, in that order and each once, so that an entry is what the last of them on its vid
has left there; and `num` counts the entries. -/
theorem device_table_linearizable (h₀ : L₀.Counted)
    (h : Reaches (CasTable.step deviceSpec) Proper (.init L₀) s) :
    s.current=deviceSpec.replay L₀ s.log ∧ s.log.Nodup ∧ (∀ o,o∈s.log ↔ s.phase o=.done) ∧
      (∀ a l,(a,l)∈s.pubs → s.mem a=deviceSpec.replay L₀ l ∧ l<+:s.log) ∧
      (∀ v,s.current.vdevs v=(lastOn v s.log).elim (L₀.vdevs v) DevOp.entry) ∧
      s.current.Counted := by
  have hi : Inv L₀ s := h.invariant (init_inv h₀) fun hi hg ht => step_inv hi hg ht
  have hcur : s.current=deviceSpec.replay L₀ s.log := (hi.cas.pubs _ _ hi.cas.head).2.1
  refine ⟨hcur,hi.cas.nodup,hi.cas.done,fun a l hl => ?_,fun v => ?_,hi.counted⟩
  · exact (hi.cas.pubs a l hl).2
  · rw [hcur]
    exact replay_vdevs L₀ s.log v

def first : DevExec := ⟨.new 0 10,0⟩
def second : DevExec := ⟨.new 1 11,0⟩
def third : DevExec := ⟨.destroy 0,0⟩

/-- Two executions of new_device in a race: the second loses its exchange and another thread
gets the block of its copy. -/
def race : List (CasAct DevExec VdevList) :=
  [.load first,.load second,.copy first 1,.copy second 2,.cas first false,.cas second false,
    .free second,.envAlloc 2,.envWrite 2 .empty]

/-- The second starts again while destroy_device removes the first device, and wins this time. -/
def raceOn : List (CasAct DevExec VdevList) :=
  [.load third,.load second,.copy third 3,.copy second 4,.cas second false,.cas third false,
    .free third,.load third,.copy third 3,.cas third false]

def called : CasTable DevExec VdevList :=
  ((CasTable.init .empty).setPhase first .begun).setPhase second .begun

/-- The state in which destroy_device is called. -/
def raced : CasTable DevExec VdevList :=
  (run (CasTable.step deviceSpec) called race).getD called

theorem reaches_called : Reaches (CasTable.step deviceSpec) Proper (.init .empty) called := by
  have hfirst : Reaches (CasTable.step deviceSpec) Proper (.init .empty)
      ((CasTable.init .empty).setPhase first .begun) :=
    .tail (a:=.call first) .refl ⟨rfl,fun _ _ hb => hb.elim⟩ rfl
  refine .tail (a:=.call second) hfirst ⟨rfl,fun o d hb hop => ?_⟩ rfl
  change Busy (Function.update (fun _ : DevExec => CasPhase.idle) first CasPhase.begun o) at hb
  by_cases ho : o=first
  · subst ho
    exact absurd (DevOp.new.inj hop).1 (by decide)
  · rw [Function.update_of_ne ho] at hb
    exact hb

theorem device_table_race : ∃ s,Reaches (CasTable.step deviceSpec) Proper (.init .empty) s ∧
    s.log=[first,second,third] ∧ s.current=deviceSpec.replay .empty [first,second,third] ∧
    s.current.num=1 ∧ s.current.vdevs 0=none ∧ s.current.vdevs 1=some 11 ∧ s.current.Counted := by
  have hrace : ∀ s,Meets (CasTable.step deviceSpec) Proper s race :=
    meets_of_forall fun s => by simp [race,Proper]
  have hraceOn : ∀ s,Meets (CasTable.step deviceSpec) Proper s raceOn :=
    meets_of_forall fun s => by simp [raceOn,Proper]
  have hraced : Reaches (CasTable.step deviceSpec) Proper (.init .empty) raced :=
    reaches_called.trans (reaches_of_meets race rfl (hrace called))
  have hthird : Reaches (CasTable.step deviceSpec) Proper (.init .empty)
      (raced.setPhase third .begun) := .tail (a:=.call third) hraced rfl rfl
  have hrun : ∃ s,run (CasTable.step deviceSpec) (raced.setPhase third .begun) raceOn=some s ∧
      s.log=[first,second,third] ∧ s.current.num=1 := ⟨_,rfl,rfl,rfl⟩
  obtain ⟨s,hs,hlog,hnum⟩ := hrun
  have hreach := hthird.trans (reaches_of_meets raceOn hs (hraceOn _))
  obtain ⟨hcur,-,-,-,hlast,hcount⟩ := device_table_linearizable VdevList.empty_counted hreach
  rw [hlog] at hlast
  exact ⟨s,hreach,hlog,hlog ▸ hcur,hnum,(hlast 0).trans rfl,(hlast 1).trans rfl,hcount⟩

end DeviceTable

end Umanet
