import Mathlib.Data.List.Basic
import Mathlib.Data.List.Nodup
import Mathlib.Logic.Function.Basic
import Umanet.Framework.Run

namespace Umanet.Framework

/-- Who has a block of memory: no one, the published tables, one operation for its private
copy, or the rest of the program. -/
inductive Owner (O : Type)
  | free
  | table
  | mine (o : O)
  | env

/-- Where an operation is: not called, at the head of its retry loop, with a table loaded,
with an edited copy of it, after a failed exchange, or over with or without effect. -/
inductive CasPhase
  | idle
  | begun
  | loaded (old : Nat)
  | copied (old new : Nat)
  | failed (new : Nat)
  | done
  | gone
  deriving DecidableEq

/-- A table that is published by address. `log` has the operations whose exchange has
succeeded, in this order, and `pubs` the published addresses, each with the log it was
published with. -/
structure CasTable (O T : Type) where
  mem : Nat → T
  owner : Nat → Owner O
  head : Nat
  phase : O → CasPhase
  log : List O
  pubs : List (Nat × List O)

inductive CasAct (O T : Type)
  | call (o : O)
  | load (o : O)
  | copy (o : O) (new : Nat)
  | giveUp (o : O)
  | cas (o : O) (spurious : Bool)
  | free (o : O)
  | envAlloc (a : Nat)
  | envWrite (a : Nat) (t : T)
  | envFree (a : Nat)

/-- An operation is begun if `enter` finds the published table good; its edit `apply` is
made if the copied table passes `fits`. -/
structure CasSpec (O T : Type) where
  enter : O → T → Bool
  fits : O → T → Bool
  apply : O → T → T

def CasSpec.replay {O T : Type} (spec : CasSpec O T) (t₀ : T) (log : List O) : T :=
  log.foldl (fun t o => spec.apply o t) t₀

theorem CasSpec.replay_snoc {O T : Type} (spec : CasSpec O T) (t₀ : T) (log : List O) (o : O) :
    spec.replay t₀ (log++[o])=spec.apply o (spec.replay t₀ log) := by
  simp [replay]

namespace CasTable

variable {O T : Type}

def current (s : CasTable O T) : T := s.mem s.head

def init (t₀ : T) : CasTable O T :=
  ⟨fun _ => t₀,fun a => if a=0 then .table else .free,0,fun _ => .idle,[],[(0,[])]⟩

section
variable [DecidableEq O]

def setPhase (s : CasTable O T) (o : O) (p : CasPhase) : CasTable O T :=
  {s with phase:=Function.update s.phase o p}

/-- The exchange compares addresses and may fail although they are equal. A private copy is
freed when the exchange has failed, a published table never is; a freed block may go to
anyone. -/
def step (spec : CasSpec O T) (s : CasTable O T) : CasAct O T → Option (CasTable O T)
  | .call o =>
    match s.phase o with
    | .idle => some (s.setPhase o (if spec.enter o s.current then .begun else .gone))
    | _ => none
  | .load o =>
    match s.phase o with
    | .begun => some (s.setPhase o (.loaded s.head))
    | _ => none
  | .copy o new =>
    match s.phase o,s.owner new with
    | .loaded old,.free =>
      if spec.fits o (s.mem old) then some {s with
        mem:=Function.update s.mem new (spec.apply o (s.mem old))
        owner:=Function.update s.owner new (.mine o)
        phase:=Function.update s.phase o (.copied old new)}
      else some (s.setPhase o .gone)
    | _,_ => none
  | .giveUp o =>
    match s.phase o with
    | .loaded _ => some (s.setPhase o .gone)
    | _ => none
  | .cas o spurious =>
    match s.phase o with
    | .copied old new =>
      if s.head=old ∧ spurious=false then some {s with
        head:=new
        owner:=Function.update s.owner new .table
        phase:=Function.update s.phase o .done
        log:=s.log++[o]
        pubs:=s.pubs++[(new,s.log++[o])]}
      else some (s.setPhase o (.failed new))
    | _ => none
  | .free o =>
    match s.phase o with
    | .failed new => some {s with
        owner:=Function.update s.owner new .free
        phase:=Function.update s.phase o .begun}
    | _ => none
  | .envAlloc a =>
    match s.owner a with
    | .free => some {s with owner:=Function.update s.owner a .env}
    | _ => none
  | .envWrite a t =>
    match s.owner a with
    | .env => some {s with mem:=Function.update s.mem a t}
    | _ => none
  | .envFree a =>
    match s.owner a with
    | .env => some {s with owner:=Function.update s.owner a .free}
    | _ => none

end

/-- What an operation relies on: the table it has loaded is a published one, and its
private copy is the edit of that table. -/
def PhaseOk (spec : CasSpec O T) (mem : Nat → T) (owner : Nat → Owner O) (o : O) : CasPhase → Prop
  | .loaded old => owner old=.table
  | .copied old new => owner old=.table ∧ owner new=.mine o ∧ spec.fits o (mem old)=true ∧
      mem new=spec.apply o (mem old)
  | .failed new => owner new=.mine o
  | .idle | .begun | .done | .gone => True

/-- Every published table is the one its log leads to. -/
structure Inv (spec : CasSpec O T) (t₀ : T) (s : CasTable O T) : Prop where
  head : (s.head,s.log)∈s.pubs
  pubs : ∀ a l,(a,l)∈s.pubs → s.owner a=.table ∧ s.mem a=spec.replay t₀ l ∧ l<+:s.log
  phases : ∀ o,PhaseOk spec s.mem s.owner o (s.phase o)
  done : ∀ o,o∈s.log ↔ s.phase o=.done
  nodup : s.log.Nodup

/-- Blocks of one owner that keep their contents and their owner. -/
def Untouched (s : CasTable O T) (mem : Nat → T) (owner : Nat → Owner O) (w : Owner O) : Prop :=
  ∀ a,s.owner a=w → mem a=s.mem a ∧ owner a=w

variable {spec : CasSpec O T} {t₀ : T} {s t : CasTable O T}

theorem init_inv (spec : CasSpec O T) (t₀ : T) : Inv spec t₀ (init t₀) where
  head := List.mem_singleton.mpr rfl
  pubs a l hm := by
    rw [init,List.mem_singleton,Prod.mk.injEq] at hm
    obtain ⟨rfl,rfl⟩ := hm
    exact ⟨rfl,rfl,List.prefix_rfl⟩
  phases _ := trivial
  done o := by simp [init]
  nodup := List.nodup_nil

/-- A step writes at most one block and changes at most its owner. -/
theorem untouched_update {w : Owner O} {b : Nat} (x : T) (w' : Owner O) (hb : s.owner b≠w) :
    Untouched s (Function.update s.mem b x) (Function.update s.owner b w') w := by
  intro a ha
  have hne : a≠b := fun e => hb (e ▸ ha)
  rw [Function.update_of_ne hne,Function.update_of_ne hne]
  exact ⟨rfl,ha⟩

theorem untouched_owner {w w' : Owner O} {b : Nat} (hb : s.owner b≠w) :
    Untouched s s.mem (Function.update s.owner b w') w := by
  have h := untouched_update (s.mem b) w' hb
  rwa [Function.update_eq_self] at h

theorem untouched_mem {w : Owner O} {b : Nat} (x : T) (hb : s.owner b≠w) :
    Untouched s (Function.update s.mem b x) s.owner w := by
  have h := untouched_update x (s.owner b) hb
  rwa [Function.update_eq_self] at h

theorem untouched_refl (s : CasTable O T) (w : Owner O) : Untouched s s.mem s.owner w :=
  fun _ ha => ⟨rfl,ha⟩

theorem PhaseOk.frame {o : O} {p : CasPhase} (h : PhaseOk spec s.mem s.owner o p) {mem : Nat → T}
    {owner : Nat → Owner O} (ht : Untouched s mem owner .table)
    (hm : Untouched s mem owner (.mine o)) : PhaseOk spec mem owner o p := by
  cases p with
  | loaded old => exact (ht old h).2
  | copied old new =>
    obtain ⟨hold,hnew,hfits,hmem⟩ := h
    refine ⟨(ht old hold).2,(hm new hnew).2,?_,?_⟩
    · rw [(ht old hold).1]
      exact hfits
    · rw [(ht old hold).1,(hm new hnew).1]
      exact hmem
  | failed new => exact (hm new h).2
  | idle | begun | done | gone => trivial

theorem Inv.env (h : Inv spec t₀ s) {mem : Nat → T} {owner : Nat → Owner O}
    (ht : Untouched s mem owner .table) (hm : ∀ o,Untouched s mem owner (.mine o)) :
    Inv spec t₀ {s with mem:=mem,owner:=owner} where
  head := h.head
  pubs a l hl := by
    obtain ⟨howner,hmem,hpre⟩ := h.pubs a l hl
    exact ⟨(ht a howner).2,(ht a howner).1.trans hmem,hpre⟩
  phases o := (h.phases o).frame ht (hm o)
  done := h.done
  nodup := h.nodup

def Busy : CasPhase → Prop
  | .begun | .loaded _ | .copied _ _ | .failed _ => True
  | .idle | .done | .gone => False

theorem Busy.ne_done {p : CasPhase} (h : Busy p) : p≠.done := by
  rintro rfl
  exact h

section
variable [DecidableEq O]

theorem Inv.move (h : Inv spec t₀ s) {o : O} {p : CasPhase} {mem : Nat → T}
    {owner : Nat → Owner O} (ht : Untouched s mem owner .table)
    (hm : ∀ o'≠o,Untouched s mem owner (.mine o')) (hp : PhaseOk spec mem owner o p)
    (hold : s.phase o≠.done) (hnew : p≠.done) :
    Inv spec t₀ {s with mem:=mem,owner:=owner,phase:=Function.update s.phase o p} where
  head := h.head
  pubs a l hl := by
    obtain ⟨howner,hmem,hpre⟩ := h.pubs a l hl
    exact ⟨(ht a howner).2,(ht a howner).1.trans hmem,hpre⟩
  phases o' := by
    by_cases ho : o'=o
    · subst ho
      simpa using hp
    · simpa [ho] using (h.phases o').frame ht (hm o' ho)
  done o' := by
    by_cases ho : o'=o
    · subst ho
      simp [h.done,hold,hnew]
    · simpa [ho] using h.done o'
  nodup := h.nodup

/-- The exchange succeeds: the copy is an edit of the table that is still the current one,
as no published table is ever written or freed. -/
theorem Inv.publish (h : Inv spec t₀ s) {o : O} {new : Nat}
    (hphase : s.phase o=.copied s.head new) : Inv spec t₀ {s with
      head:=new
      owner:=Function.update s.owner new .table
      phase:=Function.update s.phase o .done
      log:=s.log++[o]
      pubs:=s.pubs++[(new,s.log++[o])]} := by
  have hok := h.phases o
  rw [hphase] at hok
  obtain ⟨-,hnew,-,hmem⟩ := hok
  have hfresh : o∉s.log := by
    rw [h.done o,hphase]
    simp
  have ht : Untouched s s.mem (Function.update s.owner new .table) .table :=
    untouched_owner (by simp [hnew])
  refine ⟨List.mem_append_right _ List.mem_cons_self,fun a l hl => ?_,fun o' => ?_,fun o' => ?_,?_⟩
  · rcases List.mem_append.mp hl with hl | hl
    · obtain ⟨howner,hval,hpre⟩ := h.pubs a l hl
      exact ⟨(ht a howner).2,hval,hpre.trans (List.prefix_append _ _)⟩
    · rw [List.mem_singleton,Prod.mk.injEq] at hl
      obtain ⟨rfl,rfl⟩ := hl
      refine ⟨Function.update_self ..,?_,List.prefix_rfl⟩
      rw [CasSpec.replay_snoc,← (h.pubs _ _ h.head).2.1]
      exact hmem
  · by_cases ho : o'=o
    · subst ho
      simp [PhaseOk]
    · simp only [Function.update_of_ne ho]
      refine (h.phases o').frame ht (untouched_owner ?_)
      rw [hnew]
      exact fun e => ho (Owner.mine.inj e).symm
  · by_cases ho : o'=o
    · subst ho
      simp
    · simpa [ho] using h.done o'
  · rw [List.nodup_append]
    refine ⟨h.nodup,List.nodup_singleton o,fun x hx y hy hxy => ?_⟩
    rw [List.mem_singleton] at hy
    exact hfresh (hy ▸ hxy ▸ hx)

/-- What a step does to the published table: an exchange that succeeds makes the edit of its
operation, everything else leaves the table alone and begins no operation but a called one. -/
def Effect (spec : CasSpec O T) (s : CasTable O T) (x : CasAct O T) (t : CasTable O T) : Prop :=
  (∃ o,Busy (s.phase o) ∧ spec.fits o s.current=true ∧ t.current=spec.apply o s.current ∧
    t.phase=Function.update s.phase o .done) ∨
  (t.current=s.current ∧ ∀ o,Busy (t.phase o) → Busy (s.phase o) ∨ x=.call o)

omit [DecidableEq O] in
theorem Inv.current_eq (h : Inv spec t₀ s) {mem : Nat → T} {owner : Nat → Owner O}
    (ht : Untouched s mem owner .table) : mem s.head=s.current :=
  (ht s.head (h.pubs _ _ h.head).1).1

/-- An operation in progress takes a step that publishes nothing. -/
theorem Inv.moved (h : Inv spec t₀ s) {o : O} {p : CasPhase} {mem : Nat → T}
    {owner : Nat → Owner O} {x : CasAct O T} (hbusy : Busy (s.phase o))
    (ht : Untouched s mem owner .table) (hm : ∀ o'≠o,Untouched s mem owner (.mine o'))
    (hp : PhaseOk spec mem owner o p) (hnew : p≠.done) :
    Inv spec t₀ {s with mem:=mem,owner:=owner,phase:=Function.update s.phase o p} ∧
      Effect spec s x {s with mem:=mem,owner:=owner,phase:=Function.update s.phase o p} := by
  refine ⟨h.move ht hm hp hbusy.ne_done hnew,Or.inr ⟨h.current_eq ht,fun o' hb => Or.inl ?_⟩⟩
  change Busy (Function.update s.phase o p o') at hb
  by_cases ho : o'=o
  · rw [ho]
    exact hbusy
  · rwa [Function.update_of_ne ho] at hb

theorem Inv.advance (h : Inv spec t₀ s) {o : O} {p : CasPhase} {x : CasAct O T}
    (hbusy : Busy (s.phase o)) (hp : PhaseOk spec s.mem s.owner o p) (hnew : p≠.done) :
    Inv spec t₀ (s.setPhase o p) ∧ Effect spec s x (s.setPhase o p) :=
  h.moved hbusy (untouched_refl s _) (fun _ _ => untouched_refl s _) hp hnew

theorem Inv.called (h : Inv spec t₀ s) {o : O} {p : CasPhase} (hidle : s.phase o=.idle)
    (hp : p=.begun ∨ p=.gone) :
    Inv spec t₀ (s.setPhase o p) ∧ Effect spec s (.call o) (s.setPhase o p) := by
  have hok : PhaseOk spec s.mem s.owner o p := by
    rcases hp with rfl | rfl <;> trivial
  have hnew : p≠.done := by
    rcases hp with rfl | rfl <;> simp
  refine ⟨h.move (untouched_refl s _) (fun _ _ => untouched_refl s _) hok (by simp [hidle]) hnew,
    Or.inr ⟨rfl,fun o' hb => ?_⟩⟩
  by_cases ho : o'=o
  · exact Or.inr (by rw [ho])
  · change Busy (Function.update s.phase o p o') at hb
    rw [Function.update_of_ne ho] at hb
    exact Or.inl hb

theorem Inv.call_step (h : Inv spec t₀ s) {o : O} (ht : s.step spec (.call o)=some t) :
    Inv spec t₀ t ∧ Effect spec s (.call o) t := by
  simp only [step] at ht
  split at ht
  · next hphase =>
    have ht' := Option.some.inj ht
    subst ht'
    refine h.called hphase ?_
    split
    · exact Or.inl rfl
    · exact Or.inr rfl
  · cases ht

theorem Inv.load_step (h : Inv spec t₀ s) {o : O} (ht : s.step spec (.load o)=some t) :
    Inv spec t₀ t ∧ Effect spec s (.load o) t := by
  simp only [step] at ht
  split at ht
  · next hphase =>
    have hbusy : Busy (s.phase o) := by rw [hphase]; trivial
    have ht' := Option.some.inj ht
    subst ht'
    exact h.advance hbusy (h.pubs _ _ h.head).1 (by simp)
  · cases ht

theorem Inv.copy_step (h : Inv spec t₀ s) {o : O} {new : Nat}
    (ht : s.step spec (.copy o new)=some t) :
    Inv spec t₀ t ∧ Effect spec s (.copy o new) t := by
  simp only [step] at ht
  split at ht
  · next old hphase hfree =>
    have hbusy : Busy (s.phase o) := by rw [hphase]; trivial
    have hold := h.phases o
    rw [hphase] at hold
    split at ht
    · next hfits =>
      have ht' := Option.some.inj ht
      subst ht'
      -- the new block was free, so it is neither a table nor another operation's copy
      have hne : old≠new := fun e => by
        rw [PhaseOk,e,hfree] at hold
        cases hold
      refine h.moved hbusy (untouched_update _ _ (by simp [hfree]))
        (fun _ _ => untouched_update _ _ (by simp [hfree])) ?_ (by simp)
      simp only [PhaseOk,Function.update_self,Function.update_of_ne hne]
      exact ⟨hold,trivial,hfits,trivial⟩
    · have ht' := Option.some.inj ht
      subst ht'
      exact h.advance hbusy trivial (by simp)
  · cases ht

theorem Inv.giveUp_step (h : Inv spec t₀ s) {o : O} (ht : s.step spec (.giveUp o)=some t) :
    Inv spec t₀ t ∧ Effect spec s (.giveUp o) t := by
  simp only [step] at ht
  split at ht
  · next hphase =>
    have hbusy : Busy (s.phase o) := by rw [hphase]; trivial
    have ht' := Option.some.inj ht
    subst ht'
    exact h.advance hbusy trivial (by simp)
  · cases ht

theorem Inv.cas_step (h : Inv spec t₀ s) {o : O} {spurious : Bool}
    (ht : s.step spec (.cas o spurious)=some t) :
    Inv spec t₀ t ∧ Effect spec s (.cas o spurious) t := by
  simp only [step] at ht
  split at ht
  · next old new hphase =>
    have hbusy : Busy (s.phase o) := by rw [hphase]; trivial
    have hok := h.phases o
    rw [hphase] at hok
    split at ht
    · next hcas =>
      have ht' := Option.some.inj ht
      subst ht'
      rw [← hcas.1] at hphase hok
      exact ⟨h.publish hphase,Or.inl ⟨o,hbusy,hok.2.2.1,hok.2.2.2,rfl⟩⟩
    · have ht' := Option.some.inj ht
      subst ht'
      exact h.advance hbusy hok.2.1 (by simp)
  · cases ht

theorem Inv.free_step (h : Inv spec t₀ s) {o : O} (ht : s.step spec (.free o)=some t) :
    Inv spec t₀ t ∧ Effect spec s (.free o) t := by
  simp only [step] at ht
  split at ht
  · next new hphase =>
    have hbusy : Busy (s.phase o) := by rw [hphase]; trivial
    have hmine := h.phases o
    rw [hphase] at hmine
    have ht' := Option.some.inj ht
    subst ht'
    refine h.moved hbusy (untouched_owner ?_) (fun o' ho => untouched_owner ?_) trivial (by simp)
    · rw [hmine]
      simp
    · rw [hmine]
      exact fun e => ho (Owner.mine.inj e).symm
  · cases ht

/-- The rest of the program takes a free block or gives one back. -/
theorem Inv.envOwner (h : Inv spec t₀ s) {a : Nat} {x : CasAct O T}
    (ha : s.owner a=.free ∨ s.owner a=.env) (w : Owner O) :
    Inv spec t₀ {s with owner:=Function.update s.owner a w} ∧
      Effect spec s x {s with owner:=Function.update s.owner a w} := by
  have htab : s.owner a≠.table := by
    rcases ha with ha | ha <;> simp [ha]
  have hmine (o : O) : s.owner a≠.mine o := by
    rcases ha with ha | ha <;> simp [ha]
  exact ⟨h.env (untouched_owner htab) fun o => untouched_owner (hmine o),
    Or.inr ⟨rfl,fun _ hb => Or.inl hb⟩⟩

theorem Inv.envAlloc_step (h : Inv spec t₀ s) {a : Nat} (ht : s.step spec (.envAlloc a)=some t) :
    Inv spec t₀ t ∧ Effect spec s (.envAlloc a) t := by
  simp only [step] at ht
  split at ht
  · next hfree =>
    have ht' := Option.some.inj ht
    subst ht'
    exact h.envOwner (Or.inl hfree) _
  · cases ht

theorem Inv.envWrite_step (h : Inv spec t₀ s) {a : Nat} {v : T}
    (ht : s.step spec (.envWrite a v)=some t) :
    Inv spec t₀ t ∧ Effect spec s (.envWrite a v) t := by
  simp only [step] at ht
  split at ht
  · next henv =>
    have ht' := Option.some.inj ht
    subst ht'
    have htab : Untouched s (Function.update s.mem a v) s.owner .table :=
      untouched_mem v (by simp [henv])
    exact ⟨h.env htab fun _ => untouched_mem v (by simp [henv]),
      Or.inr ⟨h.current_eq htab,fun _ hb => Or.inl hb⟩⟩
  · cases ht

theorem Inv.envFree_step (h : Inv spec t₀ s) {a : Nat} (ht : s.step spec (.envFree a)=some t) :
    Inv spec t₀ t ∧ Effect spec s (.envFree a) t := by
  simp only [step] at ht
  split at ht
  · next henv =>
    have ht' := Option.some.inj ht
    subst ht'
    exact h.envOwner (Or.inr henv) _
  · cases ht

theorem step_effect (h : Inv spec t₀ s) {x : CasAct O T} (ht : s.step spec x=some t) :
    Inv spec t₀ t ∧ Effect spec s x t := by
  cases x with
  | call o => exact h.call_step ht
  | load o => exact h.load_step ht
  | copy o new => exact h.copy_step ht
  | giveUp o => exact h.giveUp_step ht
  | cas o spurious => exact h.cas_step ht
  | free o => exact h.free_step ht
  | envAlloc a => exact h.envAlloc_step ht
  | envWrite a v => exact h.envWrite_step ht
  | envFree a => exact h.envFree_step ht

end

end CasTable

/-- How a round of a retry loop ends when no one else writes the table: no memory for the
copy, an exchange that fails although nothing has changed, or success. -/
inductive Round
  | noMemory
  | spurious
  | exchanged
  deriving DecidableEq

section
variable {T : Type}

/-- The retry loop of one operation that runs alone: test, copy, exchange. The outer none is
a loop that is not over after these rounds, the inner one a loop that gave up. -/
def retryLoop (full : T → Bool) (edit : T → T) (t : T) : List Round → Option (Option T)
  | [] => none
  | r::rs =>
    if full t then some none
    else
      match r with
      | .noMemory => some none
      | .spurious => retryLoop full edit t rs
      | .exchanged => some (some (edit t))

/-- Whether the first round that is no spurious failure succeeds. -/
def settles : List Round → Option Bool
  | [] => none
  | .noMemory::_ => some false
  | .spurious::rs => settles rs
  | .exchanged::_ => some true

/-- A table with room is edited or left as it is, as memory allows. -/
theorem retryLoop_of_room {full : T → Bool} {t : T} (h : full t=false) (edit : T → T)
    (rs : List Round) : retryLoop full edit t rs=
      (settles rs).map fun ok => if ok then some (edit t) else none := by
  induction rs with
  | nil => rfl
  | cons r rs ih =>
    cases r with
    | noMemory => simp [retryLoop,settles,h]
    | spurious => simpa [retryLoop,settles,h] using ih
    | exchanged => simp [retryLoop,settles,h]

end

end Umanet.Framework
