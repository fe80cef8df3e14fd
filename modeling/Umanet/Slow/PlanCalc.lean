import Umanet.Vhost.Plan

namespace Umanet

/-- The two mirror families vhost_rx_* and vhost_tx_*. -/
inductive Dir
  | rx
  | tx
  deriving DecidableEq

def Config.cores (cfg : Config) : Dir → Nat
  | .rx => cfg.vhostRxCores
  | .tx => cfg.vhostTxCores

theorem Config.cores_pos (cfg : Config) (dir : Dir) : 0 < cfg.cores dir := by
  cases dir
  · exact cfg.rxCores_pos
  · exact cfg.txCores_pos

/-- `WINDOW_SIZE` -/
abbrev windowSize : Nat := 10

instance : NeZero windowSize := ⟨by decide⟩

def byteActiveThreshold : Nat := 10*1024
def pktActiveThreshold : Nat := 100

/-- The window fields of `struct vdev_rx_stats`; counters are uint32. -/
structure VdevRxStats where
  byteWnd : Fin windowSize → Nat
  pktWnd : Fin windowSize → Nat
  emptyWnd : Fin windowSize → Nat
  wndIdx : Fin windowSize

namespace VdevRxStats

def wndSum (w : Fin windowSize → Nat) : Nat :=
  (List.finRange windowSize).foldl (fun acc k => (acc+w k)%2^32) 0

def active (st : VdevRxStats) : Bool :=
  decide (wndSum st.byteWnd>byteActiveThreshold) || decide (wndSum st.pktWnd>pktActiveThreshold)

def rotate (st : VdevRxStats) : VdevRxStats :=
  let i := st.wndIdx+1
  ⟨Function.update st.byteWnd i 0,Function.update st.pktWnd i 0,
    Function.update st.emptyWnd i 0,i⟩

end VdevRxStats

/-- Statistics and `is_active` while a core's old plan is scanned. -/
structure Scan where
  stats : Vid → VdevRxStats
  isActive : Vid → Bool

/-- One entry of the old plan. Entries without a device are skipped; the RX side
also rotates the entry's window, so a duplicate entry sees the rotated one. -/
def scanEntry (dir : Dir) (L : VdevList) (c : Scan) (v : Vid) : Scan :=
  if L.live v then
    match dir with
    | .rx => ⟨Function.update c.stats v (c.stats v).rotate,
        Function.update c.isActive v (c.stats v).active⟩
    | .tx => ⟨c.stats,Function.update c.isActive v true⟩
  else c

def scanPlan (dir : Dir) (L : VdevList) (stats : Vid → VdevRxStats) (p : VhostPlan) : Scan :=
  p.entries.foldl (scanEntry dir L) ⟨stats,fun _ => false⟩

/-- First loop of the rebuild: active vids in increasing order. -/
def addActive (act : Vid → Bool) (p : VhostPlan) : VhostPlan :=
  (List.finRange maxVhosts).foldl (fun q j => if act j then q.append j else q) p

/-- Inactive, still in vdev_list, and with affinity to this core. -/
def probe (L : VdevList) (aff : Vid → Nat) (i : Nat) (act : Vid → Bool) (j : Vid) : Bool :=
  !act j && L.live j && decide (aff j=i)

/-- Second loop of the rebuild, which stops when `num` reaches `MAX_PKT_BURST`. -/
def addProbes (cond : Vid → Bool) (p : VhostPlan) : VhostPlan :=
  (List.finRange maxVhosts).foldl
    (fun q j => if q.num < maxPktBurst ∧ cond j then q.append j else q) p

/-- The plan calculate_vhost_rx_plan / calculate_vhost_tx_plan installs for core i. -/
def calculatePlan (L : VdevList) (aff : Vid → Nat) (i : Nat) (act : Vid → Bool) : VhostPlan :=
  addProbes (probe L aff i act) (addActive act .zero)

theorem scan_active_mem (dir : Dir) (L : VdevList) (l : List Vid) (c : Scan) (v : Vid)
    (h : (l.foldl (scanEntry dir L) c).isActive v=true) :
    c.isActive v=true ∨ (v∈l ∧ L.live v=true) := by
  induction l generalizing c with
  | nil => exact Or.inl h
  | cons u l ih =>
    rw [List.foldl_cons] at h
    rcases ih _ h with hc | ⟨hm,hl⟩
    · by_cases hu : L.live u=true
      · by_cases he : v=u
        · exact Or.inr ⟨by simp [he],he ▸ hu⟩
        · left
          cases dir <;> simpa [scanEntry,hu,Function.update_of_ne he] using hc
      · exact Or.inl (by simpa [scanEntry,hu] using hc)
    · exact Or.inr ⟨List.mem_cons_of_mem _ hm,hl⟩

theorem scanPlan_active (dir : Dir) (L : VdevList) (stats : Vid → VdevRxStats) (p : VhostPlan)
    (v : Vid) (h : (scanPlan dir L stats p).isActive v=true) : v∈p.entries ∧ L.live v=true := by
  rcases scan_active_mem dir L p.entries _ v h with h0 | h1
  · simp at h0
  · exact h1

/-- A push loop appends the selected vids while the array has room for all of them. -/
theorem pushLoop_entries (cond : Vid → Bool) (l : List Vid) (p : VhostPlan)
    (h : p.num+(l.filter cond).length ≤ maxVhosts) :
    let q := l.foldl (fun q j => if q.num < maxPktBurst ∧ cond j then q.append j else q) p
    q.entries=p.entries++l.filter cond ∧ q.num=p.num+(l.filter cond).length := by
  induction l generalizing p with
  | nil => simp
  | cons j l ih =>
    by_cases hc : cond j=true
    · have hf : (j::l).filter cond=j::l.filter cond := by simp [hc]
      rw [hf,List.length_cons] at h
      have hn : p.num < maxPktBurst := by simp only [maxPktBurst,maxVhosts] at *; omega
      obtain ⟨he,hk⟩ := ih (p.append j) (by rw [VhostPlan.append_num]; omega)
      simp only [List.foldl_cons,if_pos (And.intro hn hc)]
      rw [he,hk,hf,VhostPlan.append_entries p j (by omega)]
      exact ⟨by simp,by rw [VhostPlan.append_num,List.length_cons]; omega⟩
    · have hf : (j::l).filter cond=l.filter cond := by simp [hc]
      rw [hf] at h ⊢
      simpa [hc] using ih p h

theorem filter_length_le (c : Vid → Bool) : ((List.finRange maxVhosts).filter c).length ≤ maxVhosts := by
  simpa using List.length_filter_le c (List.finRange maxVhosts)

theorem addActive_eq (act : Vid → Bool) : addActive act .zero=addProbes act .zero := by
  have key : ∀ (l : List Vid) (p : VhostPlan), p.num+l.length ≤ maxVhosts →
      l.foldl (fun q j => if act j then q.append j else q) p=
        l.foldl (fun q j => if q.num < maxPktBurst ∧ act j then q.append j else q) p := by
    intro l
    induction l with
    | nil => intro p _; rfl
    | cons j l ih =>
      intro p h
      rw [List.length_cons] at h
      have hn : p.num < maxPktBurst := by simp only [maxPktBurst,maxVhosts] at *; omega
      simp only [List.foldl_cons]
      by_cases hc : act j=true
      · rw [if_pos hc,if_pos ⟨hn,hc⟩]
        exact ih _ (by rw [VhostPlan.append_num]; omega)
      · rw [if_neg hc,if_neg (by simp [hc])]
        exact ih _ (by omega)
  exact key _ _ (by simp)

theorem split_length (act cond : Vid → Bool) (h : ∀ j,cond j=true → act j=false) :
    ((List.finRange maxVhosts).filter act).length+((List.finRange maxVhosts).filter cond).length
      ≤ maxVhosts := by
  have hle : ((List.finRange maxVhosts).filter cond).length ≤
      ((List.finRange maxVhosts).filter (fun j => !act j)).length := by
    apply List.Sublist.length_le
    apply List.monotone_filter_right
    intro j hj
    simp [h j hj]
  have hs : maxVhosts=((List.finRange maxVhosts).filter act).length+
      ((List.finRange maxVhosts).filter (fun j => !act j)).length := by
    simpa using List.length_eq_length_filter_add (l:=List.finRange maxVhosts) act
  omega

/-- Active vids first, then the probed ones, each group in increasing order. -/
theorem calculatePlan_entries (L : VdevList) (aff : Vid → Nat) (i : Nat) (act : Vid → Bool) :
    (calculatePlan L aff i act).entries=
      (List.finRange maxVhosts).filter act++
        (List.finRange maxVhosts).filter (probe L aff i act) ∧
    (calculatePlan L aff i act).num ≤ maxVhosts := by
  have ha := pushLoop_entries act (List.finRange maxVhosts) .zero
    (by simpa using filter_length_le act)
  have hs := split_length act (probe L aff i act) (by intro j hj; simp [probe] at hj; exact hj.1.1)
  simp only [VhostPlan.zero_entries,VhostPlan.zero_num,List.nil_append,Nat.zero_add] at ha
  have hp := pushLoop_entries (probe L aff i act) (List.finRange maxVhosts) (addProbes act .zero)
    (by rw [addProbes,ha.2]; exact hs)
  unfold calculatePlan
  rw [addActive_eq]
  refine ⟨?_,?_⟩
  · rw [addProbes,hp.1,addProbes,ha.1]
  · rw [addProbes,hp.2,addProbes,ha.2]
    exact hs

theorem count_filter_finRange (c : Vid → Bool) (v : Vid) :
    ((List.finRange maxVhosts).filter c).count v=if c v=true then 1 else 0 := by
  have hone : (List.finRange maxVhosts).count v=1 :=
    List.count_eq_one_of_mem (List.nodup_finRange _) (List.mem_finRange _)
  by_cases hc : c v=true
  · rw [List.count_filter hc,hone,if_pos hc]
  · rw [if_neg hc,List.count_eq_zero]
    simp [hc]

/-- Each vid is installed once if it is active or probed, and not otherwise. -/
theorem calculatePlan_count (L : VdevList) (aff : Vid → Nat) (i : Nat) (act : Vid → Bool)
    (v : Vid) :
    (calculatePlan L aff i act).entries.count v=
      if act v=true ∨ probe L aff i act v=true then 1 else 0 := by
  rw [(calculatePlan_entries L aff i act).1,List.count_append,count_filter_finRange,
    count_filter_finRange]
  cases hc : act v <;> simp [probe,hc]

end Umanet
