import Umanet.Fast.EthRx

namespace Umanet

open Framework

variable {μ β : Type}

/-- What is appended to each vhost_tx_ring and each eth_tx_queue_ring. -/
structure Rows (μ : Type) where
  vm : Vid → List μ
  eth : Nat → List μ

/-- Dispatch without staging: a packet alone goes to the ring of its exit, if there is room. -/
def naiveOne (exit : Polled μ → Exit) (accVm : Vid → Nat) (accEth : Nat → Nat) (r : Rows μ)
    (p : Polled μ) : Rows μ :=
  match exit p with
  | .vm v =>
    if (r.vm v).length < accVm v then {r with vm:=Function.update r.vm v (r.vm v++[p.mbuf])} else r
  | .eth q =>
    if (r.eth q).length < accEth q then {r with eth:=Function.update r.eth q (r.eth q++[p.mbuf])}
    else r
  | .slow | .drop => r

def naive (exit : Polled μ → Exit) (accVm : Vid → Nat) (accEth : Nat → Nat)
    (pkts : List (Polled μ)) : Rows μ :=
  pkts.foldl (naiveOne exit accVm accEth) ⟨fun _ => [],fun _ => []⟩

/-- Room for one packet after the other is room for a front part of the packets. -/
theorem update_take {ι : Type} [DecidableEq ι] (acc : ι → Nat) (rows rows' : ι → List μ) {i : ι}
    {m : μ} (h : Function.update rows i (rows i++[m])=rows') :
    (if ((rows i).take (acc i)).length < acc i then
      Function.update (fun j => (rows j).take (acc j)) i ((rows i).take (acc i)++[m])
    else fun j => (rows j).take (acc j))=fun j => (rows' j).take (acc j) := by
  subst h
  funext j
  by_cases hj : j=i
  · subst hj
    rw [Function.update_self,take_snoc]
    split
    · rw [Function.update_self]
    · rfl
  · rw [Function.update_of_ne hj]
    split
    · rw [Function.update_of_ne hj]
    · rfl

/-- Each ring gets the packets of its exit, in order, as far as there is room. -/
theorem naive_eq (exit : Polled μ → Exit) (accVm : Vid → Nat) (accEth : Nat → Nat)
    (pkts : List (Polled μ)) : naive exit accVm accEth pkts=
      ⟨fun v => (bucket (fun p => decide (exit p=.vm v)) Polled.mbuf pkts).take (accVm v),
        fun q => (bucket (fun p => decide (exit p=.eth q)) Polled.mbuf pkts).take (accEth q)⟩ := by
  induction pkts using List.reverseRecOn with
  | nil => simp [naive,bucket]
  | append_singleton pkts p ih =>
    rw [naive,List.foldl_append,← naive,ih,List.foldl_cons,List.foldl_nil,naiveOne]
    have hother (e : Exit) (hne : exit p≠e) : bucket (fun p => decide (exit p=e)) Polled.mbuf
        (pkts++[p])=bucket (fun p => decide (exit p=e)) Polled.mbuf pkts := by
      rw [bucket_snoc]
      simp [hne]
    cases he : exit p with
    | vm v =>
      have hvm := update_take accVm _ _ (bucket_update Exit.vm_injective Polled.mbuf pkts he)
      simp only [hother (.eth _) (by simp [he])]
      rw [← hvm]
      split <;> rfl
    | eth q =>
      have heth := update_take accEth _ _ (bucket_update Exit.eth_injective Polled.mbuf pkts he)
      simp only [hother (.vm _) (by simp [he])]
      rw [← heth]
      split <;> rfl
    | slow => simp only [hother (.vm _) (by simp [he]),hother (.eth _) (by simp [he])]
    | drop => simp only [hother (.vm _) (by simp [he]),hother (.eth _) (by simp [he])]

/-- An ingress loop, burst after burst: the arrays each burst starts with and what it appends
to the rings. -/
def appended (body : Carry μ → β → Option (Out μ)) :
    Carry μ → List β → Option (List (Carry μ × Rows μ))
  | _,[] => some []
  | c,b::bs => (body c b).bind fun o =>
      (appended body ⟨o.vmPkts,o.ethPkts⟩ bs).map fun l => (c,⟨o.vm,o.eth⟩)::l

/-- A body that from empty arrays either appends what is wanted and empties them again, or
cannot finish. -/
theorem appended_iff {body : Carry μ → β → Option (Out μ)} {want : β → Rows μ} {ok : β → Prop}
    (hok : ∀ b,ok b → ∃ o,body .zero b=some o ∧ (⟨o.vm,o.eth⟩ : Rows μ)=want b ∧
      (⟨o.vmPkts,o.ethPkts⟩ : Carry μ)=.zero)
    (hbad : ∀ b,¬ok b → body .zero b=none) (bs : List β) :
    appended body .zero bs=some (bs.map fun b => (.zero,want b)) ↔ ∀ b∈bs,ok b := by
  induction bs with
  | nil => simp [appended]
  | cons b bs ih =>
    rw [appended,List.forall_mem_cons,← ih]
    by_cases hb : ok b
    · obtain ⟨o,ho,hrows,hzero⟩ := hok b hb
      rw [ho,Option.bind_some,hzero,hrows,List.map_cons]
      simp only [hb,true_and]
      cases appended body Carry.zero bs with
      | none => simp
      | some l => simp
    · rw [hbad b hb]
      simp [hb]

/-- A burst of at most MAX_PKT_BURST packets. -/
abbrev Bounded (pkts : β → List (Polled μ)) : Type := {b : β // (pkts b).length ≤ maxPktBurst}

theorem burst_ok {cfg : Config} {rss : Softrss} {b : Burst μ} (hn : b.pkts.length ≤ maxPktBurst)
    (hm : (b.msgs cfg rss).length ≤ maxPktBurst) : ∃ o,burst cfg rss .zero b=some o ∧
      (⟨o.vm,o.eth⟩ : Rows μ)=naive (exitOf cfg rss) b.accVm b.accEth b.pkts ∧
      (⟨o.vmPkts,o.ethPkts⟩ : Carry μ)=.zero := by
  have hs := burst_spec cfg rss b hn
  rw [if_pos hm] at hs
  obtain ⟨o,ho,hout⟩ := hs
  refine ⟨o,ho,?_,hout.carry⟩
  rw [naive_eq,funext hout.vm,funext hout.eth]
  rfl

theorem ethBurst_ok {base : Ip} {b : EthBurst μ} (hn : b.pkts.length ≤ maxPktBurst)
    (hf : ∀ p∈b.pkts,b.Found base p) : ∃ o,ethBurst base .zero b=some o ∧
      (⟨o.vm,o.eth⟩ : Rows μ)=naive (ethExitOf base) b.accVm (fun _ => 0) b.pkts ∧
      (⟨o.vmPkts,o.ethPkts⟩ : Carry μ)=.zero := by
  rcases ethBurst_spec base b hn with ⟨o,ho,hout,-⟩ | ⟨-,p,hp,hnf⟩
  · refine ⟨o,ho,?_,?_⟩
    · rw [naive_eq,funext hout.vm,hout.eth]
      simp only [List.take_zero]
      rfl
    · rw [hout.vmPkts,hout.ethPkts]
      rfl
  · exact absurd (hf p hp) hnf

/-- Batched dispatch is the naive one, burst after burst and from empty arrays each time, iff
no burst of vhost_rx_loop has more than MAX_PKT_BURST messages for the slow path and no
burst of eth_rx_loop has a packet for a device that is not in the list loaded for it. -/
theorem dispatch_naive_iff (cfg : Config) (rss : Softrss) :
    (∀ bs : List (Bounded (Burst.pkts (μ:=μ))),
      appended (fun c b => burst cfg rss c b.val) .zero bs=
        some (bs.map fun b => (.zero,naive (exitOf cfg rss) b.val.accVm b.val.accEth b.val.pkts)) ↔
      ∀ b∈bs,(b.val.msgs cfg rss).length ≤ maxPktBurst) ∧
    (∀ bs : List (Bounded (EthBurst.pkts (μ:=μ))),
      appended (fun c b => ethBurst cfg.ip c b.val) .zero bs=
        some (bs.map fun b => (.zero,naive (ethExitOf cfg.ip) b.val.accVm (fun _ => 0) b.val.pkts)) ↔
      ∀ b∈bs,∀ p∈b.val.pkts,b.val.Found cfg.ip p) ∧
    ∀ (p : Polled μ) (q : Nat),exitOf cfg rss p=.eth q → q < maxEthTxQueues := by
  refine ⟨appended_iff (fun b hb => burst_ok b.2 hb) fun b hb => ?_,
    appended_iff (fun b hb => ethBurst_ok b.2 hb) fun b hb => ?_,fun p q hq => ?_⟩
  · have hs := burst_spec cfg rss b.val b.2
    rwa [if_neg hb] at hs
  · rcases ethBurst_spec cfg.ip b.val b.2 with ⟨o,-,-,hf⟩ | ⟨hn,-⟩
    · exact absurd hf hb
    · exact hn
  · exact Nat.lt_of_lt_of_le (exitOf_eth_lt hq) cfg.queues_le

/-- A frame for 192.168.100.5 that arrives before any list is published, when the route
table is still zero. -/
def earlyFrame : EthBurst Nat where
  queue:=0
  snap:=none
  pkts:=[⟨10,ipv4Frame 9 5,.zeroed⟩]
  accVm:=fun _ => 1
  accSlow:=1

def gatewayRequest : Data := fun o =>
  if o=12 then 8 else if o=13 then 6 else if o=21 then 1 else if o=38 then 192
  else if o=39 then 168 else if o=40 then 100 else if o=41 then 1 else 0

/-- 64 requests for the gateway from a device that is still learning. -/
def requestFlood : Burst Nat where
  vid:=0
  learning:=true
  pkts:=List.replicate 64 ⟨10,gatewayRequest,initRouteTable⟩
  accEth:=fun _ => 0
  accVm:=fun _ => 0
  accSlow:=64

/-- The naive algorithm gives packet 10 to ring 0, eth_rx_loop reads through NULL; and
vhost_rx_loop writes its 65th message past slow_msgs. -/
theorem dispatch_stops : ethBurst smallConfig.ip .zero earlyFrame=none ∧
    (naive (ethExitOf smallConfig.ip) earlyFrame.accVm (fun _ => 0) earlyFrame.pkts).vm 0=[10] ∧
    burst smallConfig (fun _ _ => 0) .zero requestFlood=none := by
  refine ⟨by rfl,by decide +kernel,?_⟩
  have hs := burst_spec smallConfig (fun _ _ => 0) requestFlood (by decide)
  have hm : ¬(requestFlood.msgs smallConfig fun _ _ => 0).length ≤ maxPktBurst := by
    decide +kernel
  rwa [if_neg hm] at hs

end Umanet
