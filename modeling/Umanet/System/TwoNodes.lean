import Umanet.Fast.Passage
import Umanet.System.Authentic

namespace Umanet

open Framework

/-- Two nodes whose NICs are connected. -/
structure TwoNodes (a b : Node) (μ : Type) where
  left : Dataplane a μ
  right : Dataplane b μ

/-- A frame out of the cable: which of the frames sent it comes from, what became of that one
on the way, which piece of it this is, and what network_poll and eth_rx_loop add. -/
structure Arrival (μ ω : Type) where
  frame : Nat
  way : ω
  piece : Nat
  mbuf : μ
  vmMac : Mac
  route : Route

/-- Steps of the nodes; a burst of network_poll comes out of the cable. -/
inductive TwoAct (a b : Node) (μ ω : Type)
  | left (x : DataAct a μ)
  | right (x : DataAct b μ)
  | toLeft (c : Fin a.cfg.ethRxCores) (queue : Nat) (snap : Option VdevList)
      (l : List (Arrival μ ω))
  | toRight (c : Fin b.cfg.ethRxCores) (queue : Nat) (snap : Option VdevList)
      (l : List (Arrival μ ω))

variable {μ ω : Type} {a b : Node}

def DataAct.fromNic {n : Node} : DataAct n μ → Bool
  | .ethPoll .. => true
  | _ => false

section
-- `wire w d` are the frames that NICs and cable make of d: d itself, d with checksums filled in,
-- the segments of a frame with RTE_MBUF_F_TX_TCP_SEG, or whatever else. Nothing is assumed of it.
variable (wire : ω → Data → List Data)

/-- The frame may be any that was sent: the cable may lose, repeat and reorder. -/
def Arrival.packet {k : Nat} (sent : List (Fin k × Data)) (x : Arrival μ ω) :
    Option (NicPacket μ) :=
  sent[x.frame]?.bind fun y =>
    (wire x.way y.2)[x.piece]?.map fun g => ⟨⟨x.mbuf,g,x.route⟩,x.vmMac⟩

namespace TwoNodes

variable [DecidableEq μ]

def init (a b : Node) (poolA poolB : List μ) (memA memB : μ → Data) : TwoNodes a b μ :=
  ⟨.init a poolA memA,.init b poolB memB⟩

def step (s : TwoNodes a b μ) : TwoAct a b μ ω → Option (TwoNodes a b μ)
  | .left x => if x.fromNic then none else (s.left.step x).map fun t => {s with left:=t}
  | .right x => if x.fromNic then none else (s.right.step x).map fun t => {s with right:=t}
  | .toLeft c queue snap l =>
    (s.left.step (.ethPoll c queue snap (l.filterMap (Arrival.packet wire s.right.sent)))).map
      fun t => {s with left:=t}
  | .toRight c queue snap l =>
    (s.right.step (.ethPoll c queue snap (l.filterMap (Arrival.packet wire s.left.sent)))).map
      fun t => {s with right:=t}

def Sole (s : TwoNodes a b μ) : TwoAct a b μ ω → Prop
  | .left x => s.left.Sole x
  | .right x => s.right.Sole x
  | _ => True

instance (s : TwoNodes a b μ) : (x : TwoAct a b μ ω) → Decidable (Sole s x)
  | .left x => inferInstanceAs (Decidable (s.left.Sole x))
  | .right x => inferInstanceAs (Decidable (s.right.Sole x))
  | .toLeft .. => isTrue trivial
  | .toRight .. => isTrue trivial

end TwoNodes

/-- What came out of the cable is made of what the other node sent. -/
def Cabled {k : Nat} (sent : List (Fin k × Data)) (seen : List Seen) : Prop :=
  ∀ vmMac g r,.nic vmMac g r∈seen → ∃ x∈sent,∃ w,g∈wire w x.2

variable {wire} in
theorem Cabled.mono {k : Nat} {sent sent' : List (Fin k × Data)} {seen : List Seen}
    (h : Cabled wire sent seen) (hs : sent⊆sent') : Cabled wire sent' seen := by
  intro vmMac g r hg
  obtain ⟨x,hx,hw⟩ := h vmMac g r hg
  exact ⟨x,hs hx,hw⟩

end

theorem OnWire.kept {n : Node} {seen : List Seen} {q : Fin n.cfg.ethTxQueues} {f : Data}
    (h : OnWire n seen q f) : ∃ d,FromVm n seen (.eth q) d ∧ Kept d f := by
  obtain ⟨g,⟨d,hd,hg⟩,hf⟩ := h
  have hkept : Kept d g := by
    rcases hg with hg | hg
    · rw [hg]
      exact .refl d
    · rw [hg]
      exact .mark n.endian d
  rw [hf]
  exact ⟨d,hd,hkept.trans (.of_addresses fun i hi => ethTxHeader_out hi)⟩

variable {wire : ω → Data → List Data}

namespace TwoNodes

open Dataplane (relayNode)

variable [DecidableEq μ]

structure Sound (wire : ω → Data → List Data) (poolA poolB : List μ) (s : TwoNodes a b μ) :
    Prop where
  left : Dataplane.Sound poolA (fun _ => s.left.seen) s.left
  right : Dataplane.Sound poolB (fun _ => s.right.seen) s.right
  toLeft : Cabled wire s.right.sent s.left.seen
  toRight : Cabled wire s.left.sent s.right.seen

section
variable {n : Node} {u t : Dataplane n μ} {x : DataAct n μ} {k : Nat} {sent : List (Fin k × Data)}

/-- A step that takes nothing from the cable leaves what came out of it. -/
theorem cabled_of_quiet (hs : ∀ c,(u.tx c).Single) (hx : x.fromNic=false)
    (h : Cabled wire sent u.seen) (ht : u.step x=some t) : Cabled wire sent t.seen := by
  intro vmMac d r hd
  rw [(Dataplane.step_logs hs ht).seen] at hd
  rcases List.mem_append.mp hd with hd | hd
  · exact h vmMac d r hd
  · cases x with
    | ethPoll => cases hx
    | rxPoll =>
      obtain ⟨p,-,hp⟩ := List.mem_map.mp hd
      cases hp
    | _ => cases hd

/-- Every packet of a burst out of the cable is made of one that was sent. -/
theorem cabled_of_poll (hs : ∀ c,(u.tx c).Single) {c : Fin n.cfg.ethRxCores} {queue : Nat}
    {snap : Option VdevList} {l : List (Arrival μ ω)} (h : Cabled wire sent u.seen)
    (ht : u.step (.ethPoll c queue snap (l.filterMap (Arrival.packet wire sent)))=some t) :
    Cabled wire sent t.seen := by
  intro vmMac d r hd
  rw [(Dataplane.step_logs hs ht).seen] at hd
  rcases List.mem_append.mp hd with hd | hd
  · exact h vmMac d r hd
  · obtain ⟨p,hp,he⟩ := List.mem_map.mp hd
    have hdata := (Seen.nic.inj he).2.1
    obtain ⟨y,-,hy⟩ := List.mem_filterMap.mp hp
    obtain ⟨x,hx,hpkt⟩ := Option.bind_eq_some_iff.mp hy
    obtain ⟨g,hg,rfl⟩ := Option.map_eq_some_iff.mp hpkt
    subst hdata
    exact ⟨x,List.mem_of_getElem? hx,y.way,List.mem_of_getElem? hg⟩

end

theorem sound_init (poolA poolB : List μ) (memA memB : μ → Data) :
    Sound wire poolA poolB (init a b poolA poolB memA memB) :=
  ⟨Dataplane.sound_init poolA memA,Dataplane.sound_init poolB memB,fun _ _ _ h => (by cases h),
    fun _ _ _ h => (by cases h)⟩

theorem Sound.step {poolA poolB : List μ} (hpa : poolA.Nodup) (hpb : poolB.Nodup)
    {s t : TwoNodes a b μ} {x : TwoAct a b μ ω} (h : Sound wire poolA poolB s) (hg : Sole s x)
    (ht : s.step wire x=some t) : Sound wire poolA poolB t := by
  cases x with
  | left x =>
    simp only [TwoNodes.step] at ht
    split at ht
    · cases ht
    · next hx =>
      obtain ⟨u,hu,ht'⟩ := Option.map_eq_some_iff.mp ht
      subst ht'
      have hsent := (Dataplane.step_logs h.left.single hu).sent_subset
      exact ⟨h.left.step_seen hpa hg hu,h.right,
        cabled_of_quiet h.left.single (Bool.eq_false_of_not_eq_true hx) h.toLeft hu,
        h.toRight.mono hsent⟩
  | right x =>
    simp only [TwoNodes.step] at ht
    split at ht
    · cases ht
    · next hx =>
      obtain ⟨u,hu,ht'⟩ := Option.map_eq_some_iff.mp ht
      subst ht'
      have hsent := (Dataplane.step_logs h.right.single hu).sent_subset
      exact ⟨h.left,h.right.step_seen hpb hg hu,h.toLeft.mono hsent,
        cabled_of_quiet h.right.single (Bool.eq_false_of_not_eq_true hx) h.toRight hu⟩
  | toLeft c queue snap l =>
    obtain ⟨u,hu,ht'⟩ := Option.map_eq_some_iff.mp ht
    subst ht'
    have hsent := (Dataplane.step_logs h.left.single hu).sent_subset
    exact ⟨h.left.step_seen hpa (Dataplane.sole_of_poll _ rfl) hu,h.right,
      cabled_of_poll h.left.single h.toLeft hu,h.toRight.mono hsent⟩
  | toRight c queue snap l =>
    obtain ⟨u,hu,ht'⟩ := Option.map_eq_some_iff.mp ht
    subst ht'
    have hsent := (Dataplane.step_logs h.right.single hu).sent_subset
    exact ⟨h.left,h.right.step_seen hpb (Dataplane.sole_of_poll _ rfl) hu,h.toLeft.mono hsent,
      cabled_of_poll h.right.single h.toRight hu⟩

end TwoNodes

end Umanet
