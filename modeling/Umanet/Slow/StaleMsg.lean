import Umanet.Slow.Arp
import Umanet.Slow.MsgPool

namespace Umanet

open Framework

/-- What slowpath_loop does with one message: an access outside vdevs, the replies it enqueues,
the devices it gives to link_vmdq, how often it frees the mbuf, and whether the message goes
back to the pool. -/
structure SlowEffect where
  undefined : Bool
  replies : List (Vid × Data)
  linked : List Vid
  frees : Nat
  returned : Bool

/-- process_arp_req without interruption; `room` says which vhost_tx rings accept an mbuf. -/
def arpEffect (cfg : Config) (room : Vid → Bool) (fromEth : Bool) (vid : Vid) (d : Data) :
    List (Vid × Data) × Nat :=
  if arpOpcode d≠arpOpRequest then ([],0)
  else if arpTip d≠cfg.ip then ([],0)
  else (if !fromEth && room vid then [(vid,arpReply cfg d)] else [],1)

/-- The body of the loop of slowpath_loop over its messages, with the mbuf's frame d: what vdevs
is indexed with, and what is done. -/
def slowHandle (cfg : Config) (L : VdevList) (room : Vid → Bool) (f : MsgFields) (d : Data) :
    List Nat × SlowEffect :=
  let effect :=
    if h : f.vid < maxVhosts then
      if L.live ⟨f.vid,h⟩ then
        match f.reason with
        | .macLearning => ⟨false,[],[⟨f.vid,h⟩],0,true⟩
        | .arpReq =>
          let (replies,frees) := arpEffect cfg room f.fromEth ⟨f.vid,h⟩ d
          ⟨false,replies,[],frees,true⟩
      else ⟨false,[],[],0,false⟩ -- `continue`: past rte_mempool_put
    else ⟨true,[],[],0,false⟩
  ([f.vid],effect)

def MsgRequest.reason : MsgRequest → SlowReason
  | .vhost reason _ => reason
  | .eth _ => .arpReq

/-- For a request r and two contents that earlier messages left in the object, slowpath_loop does
the same: no access outside vdevs, the same replies and frees, and the message goes back or not. -/
def SameActions (cfg : Config) (L : VdevList) (room : Vid → Bool) (r : MsgRequest)
    (f₁ f₂ : MsgFields) (d : Data) : Prop :=
  (slowHandle cfg L room (r.fill f₁) d).2.undefined=false ∧
    (slowHandle cfg L room (r.fill f₁) d).2=(slowHandle cfg L room (r.fill f₂) d).2

/-- Besides, vdevs is indexed by what the request has set. -/
def StaleFree (cfg : Config) (L : VdevList) (room : Vid → Bool) (r : MsgRequest)
    (f₁ f₂ : MsgFields) (d : Data) : Prop :=
  SameActions cfg L room r f₁ f₂ d ∧
    ∀ i∈(slowHandle cfg L room (r.fill f₁) d).1++(slowHandle cfg L room (r.fill f₂) d).1,
      r.setVid=some i

section
variable {cfg : Config} {L : VdevList} {room : Vid → Bool} {d : Data}

theorem arpEffect_gateway (hd : gatewayArp cfg.ip d=true) (fromEth : Bool) (vid : Vid) :
    arpEffect cfg room fromEth vid d=
      (if !fromEth && room vid then [(vid,arpReply cfg d)] else [],1) := by
  simp only [gatewayArp,Bool.and_eq_true,decide_eq_true_eq] at hd
  rw [arpEffect,if_neg (not_not.mpr hd.1.2),if_neg (not_not.mpr hd.2)]

/-- process_arp_req step by step does what arpEffect says, to the ring and to the mbuf. -/
theorem processArpReq_effect {s : ArpSys} {m : Nat} {vid : Vid} {src : SlowSrc}
    (hsrc : src=.vhost vid ∨ ∃ q,src=.eth q) (hpc : s.pc=.check)
    (hroom : room vid=decide ((s.rings vid).length < ringCap)) :
    ∃ n t,run (fun s (_ : Unit) => s.processArpReq cfg src m) s (List.replicate n ())=some t ∧
      t.pc=.done ∧
      t.frees=s.frees+(arpEffect cfg room (src≠.vhost vid) vid (s.data m)).2 ∧
      t.rings=Function.update s.rings vid (s.rings vid++
        (arpEffect cfg room (src≠.vhost vid) vid (s.data m)).1.map fun _ => ⟨m,true⟩) ∧
      ∀ r∈(arpEffect cfg room (src≠.vhost vid) vid (s.data m)).1,r.2=t.data m := by
  by_cases hop : arpOpcode (s.data m)=arpOpRequest
  · by_cases htip : arpTip (s.data m)=cfg.ip
    · refine ⟨4,?_⟩
      rw [arpEffect,if_neg (not_not.mpr hop),if_neg (not_not.mpr htip)]
      rcases hsrc with rfl | ⟨q,rfl⟩
      · by_cases hlen : (s.rings vid).length < ringCap
        · simp [run,ArpSys.processArpReq,hpc,hop,htip,hroom,hlen,List.replicate]
        · simp [run,ArpSys.processArpReq,hpc,hop,htip,hroom,hlen,List.replicate]
      · simp [run,ArpSys.processArpReq,hpc,hop,htip,List.replicate]
    · refine ⟨1,{s with pc:=.done},?_⟩
      rw [arpEffect,if_neg (not_not.mpr hop),if_pos htip]
      simp [run,ArpSys.processArpReq,hpc,hop,htip]
  · refine ⟨1,{s with pc:=.done},?_⟩
    rw [arpEffect,if_pos hop]
    simp [run,ArpSys.processArpReq,hpc,hop]

/-- The three things slowpath_loop can do, by the entry of vdevs. -/
theorem slowHandle_outside {f : MsgFields} (h : ¬f.vid < maxVhosts) :
    (slowHandle cfg L room f d).2=⟨true,[],[],0,false⟩ := dif_neg h

theorem slowHandle_gone {f : MsgFields} (h : f.vid < maxVhosts)
    (hlive : L.live ⟨f.vid,h⟩=false) : (slowHandle cfg L room f d).2=⟨false,[],[],0,false⟩ :=
  (dif_pos h).trans (if_neg (Bool.eq_false_iff.mp hlive))

theorem slowHandle_live {f : MsgFields} (h : f.vid < maxVhosts) (hlive : L.live ⟨f.vid,h⟩=true) :
    (slowHandle cfg L room f d).2=
      match f.reason with
      | .macLearning => ⟨false,[],[⟨f.vid,h⟩],0,true⟩
      | .arpReq => ⟨false,(arpEffect cfg room f.fromEth ⟨f.vid,h⟩ d).1,[],
          (arpEffect cfg room f.fromEth ⟨f.vid,h⟩ d).2,true⟩ :=
  (dif_pos h).trans (if_pos hlive)

/-- The body of slowpath_loop as a step of the message pool. -/
theorem handle_effect {cores : Nat} {s : MsgPool cores} {o : MsgId} {rest : List MsgId}
    (hb : s.batch=some (L,o::rest)) : s.step .handle=
      if (slowHandle cfg L room (s.fields o) d).2.undefined then some {s with undefined:=true}
      else if (slowHandle cfg L room (s.fields o) d).2.returned then
        some {s with slowCache:=s.slowCache++[o],batch:=some (L,rest)}
      else some {s with batch:=some (L,rest)} := by
  simp only [MsgPool.step,hb]
  split
  · next h =>
    split
    · next hlive =>
      rw [slowHandle_live h hlive]
      cases (s.fields o).reason <;> rfl
    · next hlive =>
      rw [slowHandle_gone h (Bool.eq_false_iff.mpr hlive)]
      rfl
  · next h =>
    rw [slowHandle_outside h]
    rfl

/-- A request for the gateway from the NIC: the mbuf is freed and no reply is made, if vdevs has a
device at whatever vid is in the message. -/
theorem slowHandle_eth (hd : gatewayArp cfg.ip d=true) (q : Nat) (f : MsgFields)
    (h : f.vid < maxVhosts) : (slowHandle cfg L room ((MsgRequest.eth q).fill f) d).2=
      if L.live ⟨f.vid,h⟩ then ⟨false,[],[],1,true⟩ else ⟨false,[],[],0,false⟩ := by
  by_cases hlive : L.live ⟨f.vid,h⟩=true
  · rw [if_pos hlive,slowHandle_live (f:=(MsgRequest.eth q).fill f) h hlive]
    simp only [MsgRequest.fill,arpEffect_gateway hd]
    rfl
  · rw [if_neg hlive]
    exact slowHandle_gone h (Bool.eq_false_iff.mpr hlive)

theorem slowHandle_undefined {f : MsgFields} :
    (slowHandle cfg L room f d).2.undefined=false ↔ f.vid < maxVhosts := by
  by_cases h : f.vid < maxVhosts
  · refine iff_of_true ?_ h
    cases hlive : L.live ⟨f.vid,h⟩ with
    | true =>
      rw [slowHandle_live h hlive]
      cases f.reason <;> rfl
    | false => rw [slowHandle_gone h hlive]
  · refine iff_of_false ?_ h
    rw [slowHandle_outside h]
    simp

theorem slowHandle_vhost (reason : SlowReason) (vid : Vid) (f₁ f₂ : MsgFields) :
    slowHandle cfg L room ((MsgRequest.vhost reason vid).fill f₁) d=
      slowHandle cfg L room ((MsgRequest.vhost reason vid).fill f₂) d := rfl

end

/-- With two old contents of its object an ARP request is treated the same, and by a vid of its own,
if and only if it comes from a VM. A request from the NIC is never treated by a vid of its own,
and the same if and only if the old vids are inside vdevs and both of no device or both of some
device. -/
theorem stale_free_iff (cfg : Config) (L : VdevList) (room : Vid → Bool) (f₁ f₂ : MsgFields)
    (d : Data) (hd : gatewayArp cfg.ip d=true) :
    (∀ r : MsgRequest,r.reason=.arpReq →
      (StaleFree cfg L room r f₁ f₂ d ↔ ∃ vid,r=.vhost .arpReq vid)) ∧
    ∀ q : Nat,SameActions cfg L room (.eth q) f₁ f₂ d ↔
      ∃ (h₁ : f₁.vid < maxVhosts) (h₂ : f₂.vid < maxVhosts),
        L.live ⟨f₁.vid,h₁⟩=L.live ⟨f₂.vid,h₂⟩ := by
  constructor
  · intro r hr
    cases r with
    | vhost reason vid =>
      have hreason : reason=.arpReq := hr
      subst hreason
      have hsame : SameActions cfg L room (.vhost .arpReq vid) f₁ f₂ d :=
        ⟨slowHandle_undefined.mpr vid.isLt,congrArg Prod.snd (slowHandle_vhost _ _ _ _)⟩
      refine iff_of_true ⟨hsame,?_⟩ ⟨vid,rfl⟩
      intro i hi
      rcases List.mem_append.mp hi with hi | hi
      · rw [List.mem_singleton.mp hi]
        rfl
      · rw [List.mem_singleton.mp hi]
        rfl
    | eth q =>
      apply iff_of_false
      · rintro ⟨-,hset⟩
        cases hset _ List.mem_cons_self
      · rintro ⟨vid,hvid⟩
        cases hvid
  · intro q
    constructor
    · rintro ⟨hdef,heq⟩
      have h₁ : f₁.vid < maxVhosts :=
        (slowHandle_undefined (f:=(MsgRequest.eth q).fill f₁)).mp hdef
      rw [heq] at hdef
      have h₂ : f₂.vid < maxVhosts :=
        (slowHandle_undefined (f:=(MsgRequest.eth q).fill f₂)).mp hdef
      rw [slowHandle_eth hd q f₁ h₁,slowHandle_eth hd q f₂ h₂] at heq
      refine ⟨h₁,h₂,?_⟩
      cases hl₁ : L.live ⟨f₁.vid,h₁⟩ <;> cases hl₂ : L.live ⟨f₂.vid,h₂⟩ <;> simp [hl₁,hl₂] at heq
      all_goals rfl
    · rintro ⟨h₁,h₂,hlive⟩
      refine ⟨slowHandle_undefined.mpr h₁,?_⟩
      rw [slowHandle_eth hd q f₁ h₁,slowHandle_eth hd q f₂ h₂,hlive]

def nicRequest : Data := fun o =>
  match o with
  | 12 => 8 | 13 => 6 | 21 => 1 | 38 => 192 | 39 => 168 | 40 => 100 | 41 => 1
  | _ => 0

/-- A request from the NIC over a message that VM 3 or VM 4 used last, both still there. -/
theorem stale_free_nic : gatewayArp smallConfig.ip nicRequest=true ∧
    SameActions smallConfig ((VdevList.empty.insert 3 0).insert 4 1) (fun _ => true) (.eth 0)
      ⟨.macLearning,false,0,3⟩ ⟨.arpReq,false,2,4⟩ nicRequest := by
  have hd : gatewayArp smallConfig.ip nicRequest=true := by decide
  exact ⟨hd,((stale_free_iff _ _ _ _ _ _ hd).2 0).mpr ⟨by decide,by decide,by decide⟩⟩

/-- Only VM 3 is left. A request from the NIC is dropped with its mbuf and its message when VM 1
used the object last; when VM 3 did, both are given back. -/
theorem stale_msg_decides : gatewayArp smallConfig.ip nicRequest=true ∧
    (slowHandle smallConfig (VdevList.empty.insert 3 0) (fun _ => true)
      ((MsgRequest.eth 0).fill ⟨.arpReq,false,0,1⟩) nicRequest)=([1],⟨false,[],[],0,false⟩) ∧
    (slowHandle smallConfig (VdevList.empty.insert 3 0) (fun _ => true)
      ((MsgRequest.eth 0).fill ⟨.arpReq,false,0,3⟩) nicRequest)=([3],⟨false,[],[],1,true⟩) ∧
    (MsgRequest.eth 0).setVid=none := by
  have hd : gatewayArp smallConfig.ip nicRequest=true := by decide
  refine ⟨hd,Prod.ext rfl ?_,Prod.ext rfl ?_,rfl⟩
  · rw [slowHandle_eth hd 0 _ (by decide)]
    rfl
  · rw [slowHandle_eth hd 0 _ (by decide)]
    rfl

end Umanet
