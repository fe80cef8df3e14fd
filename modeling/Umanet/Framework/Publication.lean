import Mathlib.Logic.Function.Basic

namespace Umanet.Framework

/-- Blocks of memory: those published under a key, and those in private hands. Hand `inl j`
holds a copy that is not published yet, hand `inr t` a block that was taken out of its place. -/
structure Publication (J T K P : Type) where
  live : P → Bool
  pub : K → P
  spare : J ⊕ T → Option P

/-- What a writer can do. `forget` loses a copy, `exchange` publishes one and takes the block
that was published before; `publish` leaves that one alone. -/
inductive PubAct (J T K P : Type)
  | quiet
  | alloc (j : J) (p : P)
  | forget (j : J) (p : P)
  | publish (j : J) (k : K) (p : P)
  | exchange (j : J) (t : T) (k : K) (p : P)
  | free (x : J ⊕ T) (p : P)

/-- The block that an action frees and that was published once. -/
def PubAct.reclaims {J T K P : Type} : PubAct J T K P → Option P
  | .free (.inr _) p => some p
  | _ => none

namespace Publication

variable {J T K P : Type}

def Enabled (h : Publication J T K P) : PubAct J T K P → Prop
  | .quiet => True
  | .alloc j p => h.live p=false ∧ h.spare (.inl j)=none
  | .forget j p | .publish j _ p => h.spare (.inl j)=some p
  | .exchange j t _ p => h.spare (.inl j)=some p ∧ h.spare (.inr t)=none
  | .free x p => h.spare x=some p

/-- No two keys share a block, and no block in private hands is published or in other hands. -/
structure Sound (h : Publication J T K P) : Prop where
  pubLive : ∀ k,h.live (h.pub k)=true
  pubInj : Function.Injective h.pub
  spareLive : ∀ {x p},h.spare x=some p → h.live p=true
  spareInj : ∀ {x y p},h.spare x=some p → h.spare y=some p → x=y
  apart : ∀ {x k p},h.spare x=some p → h.pub k≠p

variable [DecidableEq J] [DecidableEq T] [DecidableEq K] [DecidableEq P]

def apply (h : Publication J T K P) : PubAct J T K P → Publication J T K P
  | .quiet => h
  | .alloc j p => {h with
      live:=Function.update h.live p true
      spare:=Function.update h.spare (.inl j) (some p)}
  | .forget j _ => {h with spare:=Function.update h.spare (.inl j) none}
  | .publish j k p => {h with
      pub:=Function.update h.pub k p
      spare:=Function.update h.spare (.inl j) none}
  | .exchange j t k p => {h with
      pub:=Function.update h.pub k p
      spare:=Function.update (Function.update h.spare (.inl j) none) (.inr t) (some (h.pub k))}
  | .free x p => {h with
      live:=Function.update h.live p false
      spare:=Function.update h.spare x none}

section
variable {h : Publication J T K P} {j : J} {x y : J ⊕ T} {k : K} {p q : P}

omit [DecidableEq K] [DecidableEq P] in
theorem spare_of_clear (hq : Function.update h.spare x none y=some q) : y≠x ∧ h.spare y=some q := by
  by_cases hyx : y=x
  · subst hyx
    rw [Function.update_self] at hq
    cases hq
  · exact ⟨hyx,(Function.update_of_ne hyx ..).symm.trans hq⟩

omit [DecidableEq P] in
theorem spare_of_take {f : J ⊕ T → Option P} (hq : Function.update f x (some p) y=some q) :
    y=x ∧ q=p ∨ y≠x ∧ f y=some q := by
  by_cases hyx : y=x
  · subst hyx
    rw [Function.update_self] at hq
    exact .inl ⟨rfl,(Option.some.inj hq).symm⟩
  · exact .inr ⟨hyx,(Function.update_of_ne hyx ..).symm.trans hq⟩

theorem live_of_ne {f : P → Bool} {b : Bool} (hne : q≠p) (hq : f q=true) :
    Function.update f p b q=true := by
  rw [Function.update_of_ne hne]
  exact hq

omit [DecidableEq K] [DecidableEq P] in
theorem Sound.take (hs : h.Sound) (hp : h.live p=true) (hpub : ∀ k,h.pub k≠p)
    (hn : ∀ y,h.spare y≠some p) :
    ({h with spare:=Function.update h.spare x (some p)} : Publication J T K P).Sound := by
  refine ⟨hs.pubLive,hs.pubInj,fun hq => ?_,fun hq hq' => ?_,fun hq => ?_⟩
  · rcases spare_of_take hq with ⟨-,rfl⟩ | ⟨-,hq⟩
    · exact hp
    · exact hs.spareLive hq
  · rcases spare_of_take hq with ⟨hx,rfl⟩ | ⟨-,hold⟩
    · rcases spare_of_take hq' with ⟨hx',-⟩ | ⟨-,hold'⟩
      · exact hx.trans hx'.symm
      · exact absurd hold' (hn _)
    · rcases spare_of_take hq' with ⟨-,rfl⟩ | ⟨-,hold'⟩
      · exact absurd hold (hn _)
      · exact hs.spareInj hold hold'
  · rcases spare_of_take hq with ⟨-,rfl⟩ | ⟨-,hq⟩
    · exact hpub _
    · exact hs.apart hq

theorem Sound.alloc (hs : h.Sound) (hp : h.live p=false) : (h.apply (.alloc j p)).Sound := by
  have hne {q : P} (hq : h.live q=true) : q≠p := by
    intro e
    rw [e,hp] at hq
    cases hq
  have hl : ({h with live:=Function.update h.live p true} : Publication J T K P).Sound :=
    ⟨fun k => live_of_ne (hne (hs.pubLive k)) (hs.pubLive k),hs.pubInj,
      fun hq => live_of_ne (hne (hs.spareLive hq)) (hs.spareLive hq),hs.spareInj,hs.apart⟩
  exact hl.take (Function.update_self ..) (fun k => hne (hs.pubLive k))
    fun y hy => hne (hs.spareLive hy) rfl

theorem Sound.forget (hs : h.Sound) : (h.apply (.forget j p)).Sound :=
  ⟨hs.pubLive,hs.pubInj,fun hq => hs.spareLive (spare_of_clear hq).2,
    fun hq hq' => hs.spareInj (spare_of_clear hq).2 (spare_of_clear hq').2,
    fun hq => hs.apart (spare_of_clear hq).2⟩

theorem Sound.publish (hs : h.Sound) (hj : h.spare (.inl j)=some p) :
    (h.apply (.publish j k p)).Sound := by
  have hne (k' : K) : h.pub k'≠p := hs.apart hj
  have hf := hs.forget (j:=j) (p:=p)
  refine ⟨fun k' => ?_,fun a b hab => ?_,hf.spareLive,hf.spareInj,fun {y k' q} hq => ?_⟩
  · change h.live (Function.update h.pub k p k')=true
    by_cases hk : k'=k
    · subst hk
      rw [Function.update_self]
      exact hs.spareLive hj
    · rw [Function.update_of_ne hk]
      exact hs.pubLive k'
  · change Function.update h.pub k p a=Function.update h.pub k p b at hab
    by_cases ha : a=k
    · by_cases hb : b=k
      · exact ha.trans hb.symm
      · subst ha
        rw [Function.update_self,Function.update_of_ne hb] at hab
        exact absurd hab.symm (hne b)
    · by_cases hb : b=k
      · subst hb
        rw [Function.update_self,Function.update_of_ne ha] at hab
        exact absurd hab (hne a)
      · rw [Function.update_of_ne ha,Function.update_of_ne hb] at hab
        exact hs.pubInj hab
  · change Function.update h.pub k p k'≠q
    obtain ⟨hyj,hq'⟩ := spare_of_clear hq
    by_cases hk : k'=k
    · subst hk
      rw [Function.update_self]
      intro e
      subst e
      exact hyj (hs.spareInj hq' hj)
    · rw [Function.update_of_ne hk]
      exact hs.apart hq'

theorem Sound.exchange {t : T} (hs : h.Sound) (hj : h.spare (.inl j)=some p) :
    (h.apply (.exchange j t k p)).Sound := by
  refine (hs.publish hj).take (hs.pubLive k) (fun k' => ?_) fun y hy => ?_
  · change Function.update h.pub k p k'≠h.pub k
    by_cases hk : k'=k
    · subst hk
      rw [Function.update_self]
      exact (hs.apart hj).symm
    · rw [Function.update_of_ne hk]
      exact fun e => hk (hs.pubInj e)
  · exact hs.apart (spare_of_clear hy).2 rfl

theorem Sound.free (hs : h.Sound) (hx : h.spare x=some p) : (h.apply (.free x p)).Sound := by
  refine ⟨fun k => live_of_ne (hs.apart hx) (hs.pubLive k),hs.pubInj,fun hq => ?_,
    fun hq hq' => ?_,fun hq => ?_⟩
  · obtain ⟨hyx,hold⟩ := spare_of_clear hq
    refine live_of_ne (fun e => ?_) (hs.spareLive hold)
    subst e
    exact hyx (hs.spareInj hold hx)
  · exact hs.spareInj (spare_of_clear hq).2 (spare_of_clear hq').2
  · exact hs.apart (spare_of_clear hq).2

theorem Sound.apply (hs : h.Sound) {a : PubAct J T K P} (he : h.Enabled a) : (h.apply a).Sound := by
  cases a with
  | quiet => exact hs
  | alloc j p => exact hs.alloc he.1
  | forget j p => exact hs.forget
  | publish j k p => exact hs.publish he
  | exchange j t k p => exact hs.exchange he.1
  | free x p => exact hs.free he

/-- A reader's block is nobody's copy, and stays the reader's until it is reclaimed. -/
theorem held {a : PubAct J T K P} (he : h.Enabled a) (hp : h.live p=true)
    (hn : ∀ j,h.spare (.inl j)≠some p) : (∀ j,(h.apply a).spare (.inl j)≠some p) ∧
    ((h.apply a).live p=true ↔ a.reclaims≠some p) := by
  have hclear (x : J ⊕ T) (i : J) : Function.update h.spare x none (.inl i)≠some p :=
    fun hi => hn i (spare_of_clear hi).2
  cases a with
  | quiet => exact ⟨hn,iff_of_true hp nofun⟩
  | alloc j q =>
    have hne : p≠q := by
      intro e
      subst e
      rw [he.1] at hp
      cases hp
    refine ⟨fun i hi => ?_,iff_of_true (live_of_ne hne hp) nofun⟩
    rcases spare_of_take hi with ⟨-,e⟩ | ⟨-,hi⟩
    · exact hne e
    · exact hn i hi
  | forget j q => exact ⟨hclear _,iff_of_true hp nofun⟩
  | publish j k q => exact ⟨hclear _,iff_of_true hp nofun⟩
  | exchange j t k q =>
    refine ⟨fun i hi => ?_,iff_of_true hp nofun⟩
    simp only [apply] at hi
    rw [Function.update_of_ne Sum.inl_ne_inr] at hi
    exact hclear _ i hi
  | free x q =>
    refine ⟨hclear x,?_⟩
    cases x with
    | inl j =>
      have hne : p≠q := fun e => hn j (e ▸ he)
      exact iff_of_true (live_of_ne hne hp) nofun
    | inr t =>
      constructor
      · intro hl e
        have hqp : q=p := Option.some.inj e
        subst hqp
        change Function.update h.live q false q=true at hl
        rw [Function.update_self] at hl
        cases hl
      · exact fun hq => live_of_ne (fun e => hq (congrArg some e.symm)) hp

end

end Publication

end Umanet.Framework
