import Umanet.Config.Options
import Umanet.Fast.Agreement
import Umanet.Framework.Refinement
import Umanet.Vhost.RouteHistory
import Mathlib.Data.Fin.VecNotation

namespace Umanet

open Framework

/-- `inet_pton` for AF_INET: the four bytes it stores where it succeeds. -/
abbrev InetPton := CString → Option (Fin 4 → Byte)

/-- `util_parse_ipv4`. The bytes are loaded as a little-endian word, which htonl swaps. -/
def utilParseIpv4 (pton : InetPton) (s : CString) (ip : Ip) : Int × Ip :=
  match pton s with
  | none => (-1,ip)
  | some b => (0,bswap32 (b 3++b 2++b 1++b 0))

/-- The second half of parse_cidr, with the length already stored. -/
def parseCidrAddr (pton : InetPton) (s : CString) (ip : Ip) (len : Byte) : Int × Ip × Byte :=
  let r := utilParseIpv4 pton s ip
  if r.1≠0 then (-1,r.2,len) else (0,r.2,len)

/-- `parse_cidr`: the value returned, and ip and prefix length after the call. -/
def parseCidr (pton : InetPton) (s : CString) (ip : Ip) (len : Byte) : Int × Ip × Byte :=
  match strrchr '/' s.chars with
  | some k =>
    let r := parseInt8 (s.drop (k+1))
    if r.1≠0 then (-1,ip,r.2) else parseCidrAddr pton (s.take k) ip r.2
  | none => parseCidrAddr pton s ip len

def cidr (a l : CString) : CString where
  chars := a.chars++ '/'::l.chars
  noNul h := by
    rcases List.mem_append.mp h with h | h
    · exact a.noNul h
    · rcases List.mem_cons.mp h with h | h
      · cases h
      · exact l.noNul h

def AgreeOn (p : Nat) (a b : Ip) : Prop := ∀ i,i < p → a.getMsbD i=b.getMsbD i

def dstAddr (d : Data) : Ip := if etherType d=etherTypeIpv4 then ipDstAddr d else arpTip d

/-- The prefix length p is valid, both functions take exactly the addresses that agree with ip on
p bits for local, and two such addresses go to one VM only if it owns both. -/
structure HonoursPrefix (ip : Ip) (p : Int) (r : Route) (owns : Vid → Ip → Prop) : Prop where
  valid : 0 ≤ p ∧ p ≤ 32
  vhost : ∀ d,etherType d=etherTypeIpv4 ∨ etherType d=etherTypeArp →
    (vhostLocalInt ip d≠0 ↔ AgreeOn p.toNat (dstAddr d) ip)
  eth : ∀ d,etherType d=etherTypeIpv4 ∨ etherType d=etherTypeArp →
    (ethLocalInt ip d≠0 ↔ AgreeOn p.toNat (dstAddr d) ip)
  owner : ∀ (v : Vid) (a b : Ip),AgreeOn p.toNat a ip → AgreeOn p.toNat b ip → a≠b →
    findVidByIp r a=(v.val : Int) → findVidByIp r b=(v.val : Int) → owns v a ∧ owns v b

/-- No VM has two entries of the table unless it owns both addresses in the /24 of ip. -/
def Unshared (r : Route) (ip : Ip) (owns : Vid → Ip → Prop) : Prop :=
  ∀ (v : Vid) (o o' : Byte),o≠o' → r o=(v.val : Int) → r o'=(v.val : Int) →
    owns v (inSubnet ip o) ∧ owns v (inSubnet ip o')

section
variable {a b ip : Ip} {p k : Nat} {d : Data} {r : Route} {owns : Vid → Ip → Prop}

theorem agreeOn_iff (hp : p ≤ 32) :
    AgreeOn p a b ↔ ∀ i,32-p ≤ i → i < 32 → a.getLsbD i=b.getLsbD i := by
  constructor
  · intro h i hle hi
    have hbit := h (31-i) (by omega)
    have hlt : 31-i < 32 := by omega
    have hidx : 32-1-(31-i)=i := by omega
    rw [BitVec.getMsbD_eq_getLsbD,BitVec.getMsbD_eq_getLsbD,hidx] at hbit
    simpa only [hlt,decide_true,Bool.true_and] using hbit
  · intro h i hi
    rw [BitVec.getMsbD_eq_getLsbD,BitVec.getMsbD_eq_getLsbD,h (32-1-i) (by omega) (by omega)]

theorem agreeOn_subnet : AgreeOn 24 a b ↔ sameSubnet a b := by
  rw [agreeOn_iff (by decide)]
  constructor
  · intro h
    show a &&& subnetMask=b &&& subnetMask
    ext i hi
    rw [BitVec.getElem_and,BitVec.getElem_and,subnetMask_bit i hi]
    by_cases h8 : 8 ≤ i
    · rw [← BitVec.getLsbD_eq_getElem hi,h i h8 hi,BitVec.getLsbD_eq_getElem hi]
    · simp [h8]
  · intro h i h8 hi
    have hbit := congrArg (fun x => BitVec.getLsbD x i) h
    have hmask : subnetMask.getLsbD i=true := by
      rw [BitVec.getLsbD_eq_getElem hi,subnetMask_bit i hi]
      exact decide_eq_true h8
    simpa only [BitVec.getLsbD_and,hmask,Bool.and_true] using hbit

theorem agreeOn_flip (ip : Ip) (hp : p ≤ 32) (hk : k < 32) :
    AgreeOn p (ip ^^^ BitVec.twoPow 32 k) ip ↔ p+k < 32 := by
  have hbit (i : Nat) :
      (ip ^^^ BitVec.twoPow 32 k).getLsbD i=ip.getLsbD i ↔ i≠k := by
    rw [BitVec.getLsbD_xor,BitVec.getLsbD_twoPow]
    by_cases hik : i=k
    · subst hik
      simp [hk]
    · have hki : k≠i := Ne.symm hik
      simp [hik,hki]
  rw [agreeOn_iff hp]
  constructor
  · intro h
    by_contra hge
    exact (hbit k).mp (h k (by omega) hk) rfl
  · intro hlt i hle _
    exact (hbit i).mpr (by omega)

theorem flowKey_dstAddr (h : etherType d=etherTypeIpv4 ∨ etherType d=etherTypeArp) :
    (flowKey d).dstIp=dstAddr d := by
  unfold dstAddr
  by_cases hip : etherType d=etherTypeIpv4
  · rw [flowKey,if_pos hip,if_pos hip]
    split <;> rfl
  · rw [flowKey,if_neg hip,if_pos (h.resolve_left hip),if_neg hip]

theorem vhostLocal_iff (h : etherType d=etherTypeIpv4 ∨ etherType d=etherTypeArp) :
    vhostLocalInt ip d≠0 ↔ sameSubnet (dstAddr d) ip := by
  rw [vhostLocalInt_ne_zero,dstIsLocalSubnet,decide_eq_true_iff,flowKey_dstAddr h]

/-- For eth_rx.c an address is local if it is in the /24 and is not 0. -/
theorem ethLocal_iff (h : etherType d=etherTypeIpv4 ∨ etherType d=etherTypeArp) :
    ethLocalInt ip d≠0 ↔ sameSubnet (dstAddr d) ip ∧ dstAddr d≠0 := by
  rw [ethLocalInt_ne_zero,ethDstIsLocalSubnet_eq,flowKey_dstAddr h,dstIsLocalSubnet,
    flowKey_dstAddr h]
  by_cases hs : sameSubnet (dstAddr d) ip
  · simp [hs]
  · simp [hs]

def frameTo (a : Ip) : Data := putBe32 (ipv4Frame 0 0) 30 a

theorem frameTo_etherType (a : Ip) : etherType (frameTo a)=etherTypeIpv4 := by
  unfold etherType frameTo putBe32
  rw [be16_store (by omega)]
  decide

theorem frameTo_dstAddr (a : Ip) : dstAddr (frameTo a)=a := by
  rw [dstAddr,if_pos (frameTo_etherType a)]
  exact be32_putBe32 ..

theorem len_eq_of_subnet (hp : p ≤ 32) (h : ∀ x,sameSubnet x ip ↔ AgreeOn p x ip) : p=24 := by
  have hflip (k : Nat) (hk : k < 32) : 24+k < 32 ↔ p+k < 32 := by
    rw [← agreeOn_flip ip (by decide) hk,← agreeOn_flip ip hp hk,agreeOn_subnet]
    exact h _
  have h7 := hflip 7 (by decide)
  have h8 := hflip 8 (by decide)
  omega

theorem unshared_iff : Unshared r ip owns ↔
    ∀ (v : Vid) (a b : Ip),sameSubnet a ip → sameSubnet b ip → a≠b →
      findVidByIp r a=(v.val : Int) → findVidByIp r b=(v.val : Int) → owns v a ∧ owns v b := by
  constructor
  · intro h v a b ha hb hab hva hvb
    have hout : octet a≠octet b := fun ho => hab (eq_of_subnet_octet (ha.trans hb.symm) ho)
    have hself (x : Ip) (hx : sameSubnet x ip) : inSubnet ip (octet x)=x :=
      eq_of_subnet_octet ((inSubnet_same ip _).trans hx.symm) (inSubnet_octet ..)
    have howns := h v _ _ hout hva hvb
    rw [hself a ha,hself b hb] at howns
    exact howns
  · intro h v o o' hoo hvo hvo'
    apply h v _ _ (inSubnet_same ip o) (inSubnet_same ip o')
    · intro heq
      apply hoo
      rw [← inSubnet_octet ip o,heq,inSubnet_octet]
    · rw [findVidByIp,inSubnet_octet]
      exact hvo
    · rw [findVidByIp,inSubnet_octet]
      exact hvo'

/-- The prefix length is honoured only where it is 24, for any address outside 0.0.0.0/24. -/
theorem honoursPrefix_iff {p : Int} : HonoursPrefix ip p r owns ↔
    p=24 ∧ ip &&& subnetMask≠0 ∧ Unshared r ip owns := by
  constructor
  · intro h
    have hv (x : Ip) : sameSubnet x ip ↔ AgreeOn p.toNat x ip := by
      have hx := h.vhost (frameTo x) (.inl (frameTo_etherType x))
      rwa [vhostLocal_iff (.inl (frameTo_etherType x)),frameTo_dstAddr] at hx
    have hvalid := h.valid
    have hlen := len_eq_of_subnet (by omega) hv
    refine ⟨by omega,?_,?_⟩
    · -- destination 0 would be local, and eth_rx.c returns it as "not local"
      intro hzero
      have h0 := h.eth (frameTo 0) (.inl (frameTo_etherType 0))
      rw [ethLocal_iff (.inl (frameTo_etherType 0)),frameTo_dstAddr,← hv] at h0
      have hs : sameSubnet 0 ip := by
        unfold sameSubnet
        rw [hzero]
        decide
      exact (h0.mpr hs).2 rfl
    · rw [unshared_iff]
      intro v a b ha hb
      exact h.owner v a b ((hv a).mp ha) ((hv b).mp hb)
  · rintro ⟨rfl,hnet,hshare⟩
    have hlen : (24 : Int).toNat=24 := rfl
    refine ⟨by decide,?_,?_,?_⟩
    · intro d hd
      rw [vhostLocal_iff hd,hlen,agreeOn_subnet]
    · intro d hd
      rw [ethLocal_iff hd,hlen,agreeOn_subnet]
      exact ⟨And.left,fun hs => ⟨hs,ne_zero_of_sameSubnet hnet hs⟩⟩
    · intro v a b ha hb
      rw [hlen,agreeOn_subnet] at ha hb
      exact unshared_iff.mp hshare v a b ha hb

end

namespace Hist

def Owns (s : Hist) (v : Vid) (a : Ip) : Prop := ∃ p,s.list.vdevs v=some p ∧ (s.devs p).ip=a

def OneEntry (s : Hist) : Prop :=
  ∀ (v : Vid) (o o' : Byte),s.route o=(v.val : Int) → s.route o'=(v.val : Int) → o=o'

/-- A learning message enters no device that has an entry already. -/
def FirstEntry (s : Hist) : Op → Prop
  | .learn _ => ∀ x∈s.learning,s.route (octet ((s.devs x.2.1).ipAfter x.2.2))=-1 →
      ∀ o : Byte,s.route o≠(x.1.val : Int)
  | _ => True

instance (s : Hist) : (a : Op) → Decidable (s.FirstEntry a)
  | .newDevice _ => isTrue trivial
  | .destroyDevice _ _ => isTrue trivial
  | .issue _ _ => isTrue trivial
  | .learn _ => Option.decidableForallMem _

section
variable {s t : Hist} {a : Op} {q : Nat} {base : Ip}

theorem LearnOk.firstEntry (h : LearnOk base s a) : s.FirstEntry a := by
  cases a with
  | learn ok =>
    rintro ⟨v,p,d⟩ hx hfree o ho
    unfold learning at hx
    unfold LearnOk at h
    cases hq : s.queue with
    | nil => simp [hq] at hx
    | cons m r =>
      rw [hq] at hx
      obtain ⟨p',hp,he⟩ := Option.map_eq_some_iff.mp hx
      cases he
      simp only [hq,hp] at h
      rw [← h.1 o ho,ho] at hfree
      omega
  | _ => trivial

theorem unshared_owns_iff (ip : Ip) : Unshared s.route ip s.Owns ↔ s.OneEntry := by
  constructor
  · intro h v o o' ho ho'
    by_contra hne
    obtain ⟨⟨p,hp,hip⟩,p',hp',hip'⟩ := h v o o' hne ho ho'
    have hpp := Option.some.inj (hp.symm.trans hp')
    subst hpp
    apply hne
    rw [← inSubnet_octet ip o,← hip,hip',inSubnet_octet]
  · intro h v o o' hne ho ho'
    exact absurd (h v o o' ho ho') hne

theorem OneEntry.of_subset (h : s.OneEntry)
    (hr : ∀ (v : Vid) (o : Byte),t.route o=(v.val : Int) → s.route o=(v.val : Int)) : t.OneEntry :=
  fun v o o' ho ho' => h v o o' (hr v o ho) (hr v o' ho')

theorem learnFound_oneEntry (hw : s.Wf) (h : s.OneEntry) {v : Vid} {p : DevPtr}
    (hp : s.list.vdevs v=some p) (d : Data) (ok : Bool) : (s.learnFound q p d ok).OneEntry ↔
      (s.route (octet ((s.devs p).ipAfter d))=-1 → ∀ o : Byte,s.route o≠(v.val : Int)) := by
  have hroute := learnFound_route hw q hp d ok
  constructor
  · intro ht hfree o ho
    have hnew := (hroute _).trans (if_pos ⟨rfl,hfree⟩)
    have he := ht v _ _ (learnFound_route_kept hw q hp d ok ho) hnew
    rw [he,hfree] at ho
    omega
  · intro hfirst
    have hcase (u : Vid) (o : Byte) (ho : (s.learnFound q p d ok).route o=(u.val : Int)) :
        o=octet ((s.devs p).ipAfter d) ∧ u=v ∧ (∀ o,s.route o≠(v.val : Int)) ∨
          s.route o=(u.val : Int) := by
      rw [hroute] at ho
      split at ho
      · next hc => exact .inl ⟨hc.1,(vid_inj ho).symm,hfirst (hc.1 ▸ hc.2)⟩
      · exact .inr ho
    intro u o o' ho ho'
    rcases hcase u o ho with ⟨hx,hu,hnone⟩ | hold
    · rcases hcase u o' ho' with ⟨hx',-,-⟩ | hold'
      · exact hx.trans hx'.symm
      · exact absurd (hu ▸ hold') (hnone o')
    · rcases hcase u o' ho' with ⟨-,hu,hnone⟩ | hold'
      · exact absurd (hu ▸ hold) (hnone o)
      · exact h u o o' hold hold'

/-- An operation keeps one entry for a device exactly when it enters none a second time. -/
theorem step_oneEntry (hw : s.Wf) (h : s.OneEntry) (ht : step q s a=some t) :
    t.OneEntry ↔ s.FirstEntry a := by
  rcases step_cases ht with ⟨v,rfl,-,rfl⟩ | ⟨v,ok,p,rfl,-,rfl⟩ | ⟨v,d,ok,p,r,rfl,hq,hp,rfl⟩ |
    ⟨⟨r,rfl⟩,hok⟩
  · refine iff_of_true (h.of_subset fun u o ho => ?_) trivial
    unfold newDevice at ho
    split at ho
    · exact ho
    · exact ho
  · refine iff_of_true (h.of_subset fun u o ho => ?_) trivial
    simp only [destroyFound,unlinkVmdq_route] at ho
    split at ho
    · omega
    · exact ho
  · rw [learnFound_oneEntry (s:={s with queue:=r}) hw h hp d ok]
    simp [FirstEntry,learning,hq,hp]
  · exact iff_of_true h (hok 0).firstEntry

theorem init_oneEntry : init.OneEntry := by
  intro v o o' ho
  have hneg : (-1 : Int)=v.val := ho
  omega

/-- Along a history the prefix length is honoured only where it is 24, and where no device is
entered twice. -/
theorem honours_iff_meets (q : Nat) (ip : Ip) (p : Int) (ops : List Op) :
    Visits (step q) (fun s => HonoursPrefix ip p s.route s.Owns) init ops ↔
      p=24 ∧ ip &&& subnetMask≠0 ∧ Meets (step q) FirstEntry init ops := by
  have hone (s : Hist) : HonoursPrefix ip p s.route s.Owns ↔
      p=24 ∧ ip &&& subnetMask≠0 ∧ s.OneEntry := by
    rw [honoursPrefix_iff,unshared_owns_iff]
  by_cases hc : p=24 ∧ ip &&& subnetMask≠0
  · have hs (s : Hist) : HonoursPrefix ip p s.route s.Owns ↔ s.OneEntry := by
      rw [hone,← and_assoc,and_iff_right hc]
    rw [← and_assoc,and_iff_right hc]
    exact visits_iff_meets (I:=Wf) (g:=FirstEntry) (fun h _ _ ht => step_wf h ht)
      (fun hw hp ht => (hs _).trans (step_oneEntry hw ((hs _).mp hp) ht)) init ops init_wf
      ((hs _).mpr init_oneEntry)
  · constructor
    · intro hv
      obtain ⟨hp,hnet,-⟩ := (hone _).mp hv.head
      exact absurd ⟨hp,hnet⟩ hc
    · rintro ⟨hp,hnet,-⟩
      exact absurd ⟨hp,hnet⟩ hc

end

end Hist

section
variable {pton : InetPton} {a l : CString}

def hostOrder (b : Fin 4 → Byte) : Ip := b 0++b 1++b 2++b 3

theorem bswap32_bytes (b : Fin 4 → Byte) : bswap32 (b 3++b 2++b 1++b 0)=hostOrder b := by
  have h0 : (b 3++b 2++b 1++b 0).extractLsb' 0 8=b 0 := by
    rw [BitVec.extractLsb'_append_eq_of_add_le (by decide)]
    exact BitVec.extractLsb'_eq_self
  have h1 : (b 3++b 2++b 1++b 0).extractLsb' 8 8=b 1 := by
    rw [BitVec.extractLsb'_append_eq_of_le (by decide),
      BitVec.extractLsb'_append_eq_of_add_le (by decide)]
    exact BitVec.extractLsb'_eq_self
  have h2 : (b 3++b 2++b 1++b 0).extractLsb' 16 8=b 2 := by
    rw [BitVec.extractLsb'_append_eq_of_le (by decide),BitVec.extractLsb'_append_eq_of_le (by decide),
      BitVec.extractLsb'_append_eq_of_add_le (by decide)]
    exact BitVec.extractLsb'_eq_self
  have h3 : (b 3++b 2++b 1++b 0).extractLsb' 24 8=b 3 := by
    rw [BitVec.extractLsb'_append_eq_of_le (by decide),BitVec.extractLsb'_append_eq_of_le (by decide),
      BitVec.extractLsb'_append_eq_of_le (by decide)]
    exact BitVec.extractLsb'_eq_self
  unfold bswap32
  rw [h0,h1,h2,h3]
  rfl

theorem parseCidr_cidr (hl : '/'∉l.chars) (ip : Ip) (len : Byte) :
    parseCidr pton (cidr a l) ip len=
      if (parseInt8 l).1≠0 then (-1,ip,(parseInt8 l).2)
      else parseCidrAddr pton a ip (parseInt8 l).2 := by
  have htake : (cidr a l).take a.chars.length=a := by
    unfold CString.take cidr
    simp
  have hdrop : (cidr a l).drop (a.chars.length+1)=l := by
    unfold CString.drop cidr
    simp
  have hsplit : strrchr '/' (cidr a l).chars=some a.chars.length := strrchr_append _ hl
  rw [parseCidr,hsplit]
  simp only [htake,hdrop]

theorem utilParseIpv4_some {b : Fin 4 → Byte} (h : pton a=some b) (ip : Ip) :
    utilParseIpv4 pton a ip=(0,hostOrder b) := by
  rw [utilParseIpv4,h]
  simp only [bswap32_bytes]

/-- An argument is accepted if the C library takes both its parts, whatever the number is. -/
theorem parseCidr_accepts_iff (hl : '/'∉l.chars) (ip : Ip) (len : Byte) :
    (parseCidr pton (cidr a l) ip len).1=0 ↔
      (parseInt8 l).1=0 ∧ ∃ b,pton a=some b := by
  rw [parseCidr_cidr hl]
  by_cases hp : (parseInt8 l).1=0
  · rw [if_neg (not_not.mpr hp)]
    unfold parseCidrAddr
    cases hb : pton a with
    | none =>
      rw [utilParseIpv4,hb]
      simp
    | some b =>
      rw [utilParseIpv4_some hb]
      simp [hp]
  · rw [if_pos hp]
    simp [hp]

theorem parseCidr_ip (hl : '/'∉l.chars) (hp : (parseInt8 l).1=0) {b : Fin 4 → Byte}
    (hb : pton a=some b) (ip : Ip) (len : Byte) :
    (parseCidr pton (cidr a l) ip len).2.1=hostOrder b := by
  rw [parseCidr_cidr hl,if_neg (not_not.mpr hp),parseCidrAddr,utilParseIpv4_some hb]
  rfl

end

theorem accepted_len_iff (pton : InetPton) (a : CString) {l : CString} (hl : '/'∉l.chars) (ip : Ip)
    (len : Byte) (X : Ip → Prop) :
    ((parseCidr pton (cidr a l) ip len).1=0 → signedValue l.chars=24 ∧
      (parseCidr pton (cidr a l) ip len).2.1 &&& subnetMask≠0 ∧
        X (parseCidr pton (cidr a l) ip len).2.1) ↔
    ∀ b blanks sign neg ds,pton a=some b → Numeral l.chars blanks sign neg ds [] →
      (neg=false ∧ value 10 ds=24) ∧ hostOrder b &&& subnetMask≠0 ∧ X (hostOrder b) := by
  rw [parseCidr_accepts_iff hl]
  constructor
  · intro h b blanks sign neg ds hb hnum
    have hp : (parseInt8 l).1=0 := parseInt_zero_iff.mpr ⟨blanks,sign,neg,ds,hnum⟩
    obtain ⟨hlen,hnet,hshare⟩ := h ⟨hp,b,hb⟩
    rw [parseCidr_ip hl hp hb] at hnet hshare
    rw [signedValue_numeral hnum] at hlen
    refine ⟨?_,hnet,hshare⟩
    cases neg with
    | false =>
      rw [if_neg Bool.false_ne_true] at hlen
      exact ⟨rfl,by omega⟩
    | true =>
      rw [if_pos rfl] at hlen
      omega
  · rintro h ⟨hp,b,hb⟩
    obtain ⟨blanks,sign,neg,ds,hnum⟩ := parseInt_zero_iff.mp hp
    obtain ⟨⟨rfl,hlen⟩,hnet,hshare⟩ := h b blanks sign neg ds hb hnum
    rw [parseCidr_ip hl hp hb,signedValue_numeral hnum,hlen]
    exact ⟨rfl,hnet,hshare⟩

/-- For every argument, route table and notion of ownership: an accepted prefix length is honoured
exactly when it is written as 24, the address is outside 0.0.0.0/24, and no VM has entries for two
addresses of the /24 that are not both its own. Over whole histories, where the owner of an address
is the device that has it, the last condition is that no learning message enters a device twice. -/
theorem cidr_locality_iff (pton : InetPton) (a l : CString) (hl : '/'∉l.chars) (ip : Ip)
    (len : Byte) :
    (∀ (r : Route) (owns : Vid → Ip → Prop),((parseCidr pton (cidr a l) ip len).1=0 →
        HonoursPrefix (parseCidr pton (cidr a l) ip len).2.1 (signedValue l.chars) r owns) ↔
      ∀ b blanks sign neg ds,pton a=some b → Numeral l.chars blanks sign neg ds [] →
        (neg=false ∧ value 10 ds=24) ∧ hostOrder b &&& subnetMask≠0 ∧
          Unshared r (hostOrder b) owns) ∧
    ∀ (ethRxQueues : Nat) (ops : List Op),((parseCidr pton (cidr a l) ip len).1=0 →
        Visits (Hist.step ethRxQueues) (fun s => HonoursPrefix
          (parseCidr pton (cidr a l) ip len).2.1 (signedValue l.chars) s.route s.Owns) .init ops) ↔
      ∀ b blanks sign neg ds,pton a=some b → Numeral l.chars blanks sign neg ds [] →
        (neg=false ∧ value 10 ds=24) ∧ hostOrder b &&& subnetMask≠0 ∧
          Meets (Hist.step ethRxQueues) Hist.FirstEntry .init ops := by
  constructor
  · intro r owns
    rw [honoursPrefix_iff]
    exact accepted_len_iff pton a hl ip len fun x => Unshared r x owns
  · intro ethRxQueues ops
    rw [Hist.honours_iff_meets]
    exact accepted_len_iff pton a hl ip len fun _ => Meets _ _ _ _

/-- The decimal octets of a dotted address, `cur` being the one in progress. An octet has no
leading zero and is at most 255. -/
def dottedOctets : List Char → Option Nat → Option (List Nat)
  | [],cur => cur.map fun n => [n]
  | c::s,cur =>
    match digit 10 c,cur with
    | some d,none => dottedOctets s (some d)
    | some d,some n => if n=0 ∨ 255 < 10*n+d then none else dottedOctets s (some (10*n+d))
    | none,some n => if c = '.' then (dottedOctets s none).map (List.cons n) else none
    | none,none => none

/-- `inet_pton` as the C library has it. -/
def inetPton : InetPton := fun s =>
  match dottedOctets s.chars none with
  | some [w,x,y,z] =>
    some ![BitVec.ofNat 8 w,BitVec.ofNat 8 x,BitVec.ofNat 8 y,BitVec.ofNat 8 z]
  | _ => none

def homeAddr : CString :=
  ⟨['1','9','2','.','1','6','8','.','1','0','0','.','1'],by decide⟩

def len24 : CString := ⟨['2','4'],by decide⟩
def len16 : CString := ⟨['1','6'],by decide⟩
def len33 : CString := ⟨['3','3'],by decide⟩

theorem usedTable_unshared (ip : Ip) (owns : Vid → Ip → Prop) : Unshared usedTable ip owns := by
  have hentry (v : Vid) (o : Byte) (h : usedTable o=(v.val : Int)) : o=7 := by
    by_contra hne
    rw [usedTable,Function.update_of_ne hne] at h
    have hneg : (-1 : Int)=v.val := h
    omega
  intro v o o' hoo hvo hvo'
  exact absurd ((hentry v o hvo).trans (hentry v o' hvo').symm) hoo

theorem len24_numeral {blanks sign : List Char} {neg : Bool} {ds : List Nat}
    (h : Numeral len24.chars blanks sign neg ds []) : neg=false ∧ value 10 ds=24 := by
  have hden : Denotes len24.chars 24 := ⟨[2,4],by decide,.cons rfl (.cons rfl .nil),by decide⟩
  obtain ⟨-,rfl,hv⟩ := hden.numeral_unique h
  refine ⟨?_,hv⟩
  cases h.sgn
  rfl

/-- `--ip-addr 192.168.100.1/24` is honoured. -/
theorem cidr_locality_net24 : '/'∉len24.chars ∧
    HonoursPrefix (parseCidr inetPton (cidr homeAddr len24) 0 0).2.1 (signedValue len24.chars)
      usedTable (fun _ _ => False) ∧
    Visits (Hist.step 1) (fun s => HonoursPrefix (parseCidr inetPton (cidr homeAddr len24) 0 0).2.1
      (signedValue len24.chars) s.route s.Owns) .init Hist.twoOctets := by
  obtain ⟨htable,hhist⟩ := cidr_locality_iff inetPton homeAddr len24 (by decide) 0 0
  have haddr (b : Fin 4 → Byte) (hb : inetPton homeAddr=some b) : hostOrder b &&& subnetMask≠0 := by
    have hb' : ![192,168,100,1]=b := Option.some.inj hb
    subst hb'
    decide
  refine ⟨by decide,(htable _ _).mpr ?_ (by decide +kernel),(hhist _ _).mpr ?_ (by decide +kernel)⟩
  · intro b blanks sign neg ds hb hnum
    exact ⟨len24_numeral hnum,haddr b hb,usedTable_unshared _ _⟩
  · intro b blanks sign neg ds hb hnum
    have hsome : (guardedRun (Hist.step 1) Hist.FirstEntry .init Hist.twoOctets).isSome := by
      decide +kernel
    obtain ⟨s,hs⟩ := Option.isSome_iff_exists.mp hsome
    exact ⟨len24_numeral hnum,haddr b hb,(meets_of_guardedRun _ hs).2⟩

/-- `--ip-addr 192.168.100.1/16`: 192.168.5.7 agrees on 16 bits and both functions call it remote,
and it shares the table entry of 192.168.100.7. A length of 33 is accepted as well. -/
theorem cidr_locality_net16 :
    parseCidr inetPton (cidr homeAddr len16) 0 0=(0,0xC0A86401,16) ∧
      AgreeOn 16 0xC0A80507 0xC0A86401 ∧ vhostLocalInt 0xC0A86401 (frameTo 0xC0A80507)=0 ∧
      ethLocalInt 0xC0A86401 (frameTo 0xC0A80507)=0 ∧
      findVidByIp usedTable 0xC0A80507=3 ∧ findVidByIp usedTable 0xC0A86407=3 ∧
      ¬HonoursPrefix 0xC0A86401 (signedValue len16.chars) usedTable (fun _ _ => False) ∧
      parseCidr inetPton (cidr homeAddr len33) 0 0=(0,0xC0A86401,33) := by
  refine ⟨by decide +kernel,?_,by decide +kernel,by decide +kernel,by decide,by decide,?_,
    by decide +kernel⟩
  · show ∀ i,i < 16 → _
    decide
  · intro h
    have hlen := (honoursPrefix_iff.mp h).1
    revert hlen
    decide

end Umanet
