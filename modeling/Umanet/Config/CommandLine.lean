import Umanet.Config.Cidr
import Umanet.Config.EtherAddr

namespace Umanet

open Framework

/-- `config_t`, without socket_files, which register_vhost_drivers fills in. -/
@[ext] structure ConfigT where
  clientMode : BitVec 32
  dequeueZeroCopy : BitVec 32
  mergeable : BitVec 32
  enableRetry : BitVec 32
  enableTxCsum : BitVec 32
  enableTso : BitVec 32
  burstRxDelayTime : BitVec 32
  burstRxRetryNum : BitVec 32
  socketDir : Option CString
  nbSockets : BitVec 32
  ip : Ip
  ipPrefix : Byte
  mac : Mac
  otherNodeMac : Mac
  ethRxCores : BitVec 16
  ethTxCores : BitVec 16
  ethRxQueues : BitVec 16
  ethTxQueues : BitVec 16
  vhostRxCores : BitVec 16
  vhostTxCores : BitVec 16
  showDash : Byte

def initConfig : ConfigT where
  clientMode:=0
  dequeueZeroCopy:=0
  mergeable:=0
  enableRetry:=1
  enableTxCsum:=0
  enableTso:=0
  burstRxDelayTime:=15
  burstRxRetryNum:=4
  socketDir:=none
  nbSockets:=0
  ip:=0
  ipPrefix:=0
  mac:=![0x02,0x00,0x00,0x00,0x00,0xFE]
  otherNodeMac:=fun _ => 0
  ethRxCores:=0
  ethTxCores:=0
  ethRxQueues:=0
  ethTxQueues:=0
  vhostRxCores:=0
  vhostTxCores:=0
  showDash:=0

/-- `enum cfg_params` -/
inductive CfgParam
  | portmask
  | rxRetry
  | rxRetryDelay
  | rxRetryNum
  | mergeable
  | socketDir
  | nbSockets
  | txCsum
  | tso
  | client
  | dequeueZeroCopy
  | ipAddr
  | otherNodeMac
  | ethRxCores
  | ethTxCores
  | ethRxQueues
  | ethTxQueues
  | vhostRxCores
  | vhostTxCores
  | showDash
  deriving DecidableEq

def cfgParams : List CfgParam :=
  [.portmask,.rxRetry,.rxRetryDelay,.rxRetryNum,.mergeable,.socketDir,.nbSockets,.txCsum,.tso,
    .client,.dequeueZeroCopy,.ipAddr,.otherNodeMac,.ethRxCores,.ethTxCores,.ethRxQueues,
    .ethTxQueues,.vhostRxCores,.vhostTxCores,.showDash]

theorem mem_cfgParams (o : CfgParam) : o∈cfgParams := by
  cases o <;> decide

/-- What getopt_long returns, `none` being '?', with optarg. An option without argument has no
use for it. -/
structure GetOpt where
  opt : Option CfgParam
  optarg : CString

/-- The C library and the file system: inet_pton, how scanf treats a bare 0x, and access. -/
structure Libc where
  pton : InetPton
  bare : Bool
  access : CString → Bool

def pathMax : Nat := 4096

def parseSocketDir (lib : Libc) (c : ConfigT) (s : CString) : Int × ConfigT :=
  if lib.access s=false then (-1,c)
  else if pathMax ≤ s.chars.length then (-1,c)
  else (0,{c with socketDir:=some s})

/-- A case that stores a number: what parse_int8, parse_int16 or parse_int32 returns, and its
store, which takes place in either case. -/
def intCase {w : Nat} (r : Int × BitVec w) (store : BitVec w → ConfigT) : Int × ConfigT :=
  (r.1,store r.2)

/-- The switch of parse_config; the number tells whether it goes on. -/
def setOption (lib : Libc) (c : ConfigT) (x : GetOpt) : Int × ConfigT :=
  match x.opt with
  | some .rxRetry => intCase (parseInt32 x.optarg) fun n => {c with enableRetry:=n}
  | some .txCsum => intCase (parseInt32 x.optarg) fun n => {c with enableTxCsum:=n}
  | some .tso => intCase (parseInt32 x.optarg) fun n => {c with enableTso:=n}
  | some .rxRetryDelay => intCase (parseInt32 x.optarg) fun n => {c with burstRxDelayTime:=n}
  | some .rxRetryNum => intCase (parseInt32 x.optarg) fun n => {c with burstRxRetryNum:=n}
  | some .mergeable => intCase (parseInt32 x.optarg) fun n => {c with mergeable:=n}
  | some .socketDir => parseSocketDir lib c x.optarg
  | some .nbSockets => intCase (parseInt32 x.optarg) fun n => {c with nbSockets:=n}
  | some .client => (0,{c with clientMode:=1})
  | some .dequeueZeroCopy => (0,{c with dequeueZeroCopy:=1})
  | some .ipAddr =>
    let r := parseCidr lib.pton x.optarg c.ip c.ipPrefix
    (r.1,{c with ip:=r.2.1,ipPrefix:=r.2.2})
  | some .otherNodeMac =>
    let r := parseEtherAddr lib.bare x.optarg c.otherNodeMac
    (r.1,{c with otherNodeMac:=r.2})
  | some .ethRxCores => intCase (parseInt16 x.optarg) fun n => {c with ethRxCores:=n}
  | some .ethTxCores => intCase (parseInt16 x.optarg) fun n => {c with ethTxCores:=n}
  | some .ethRxQueues => intCase (parseInt16 x.optarg) fun n => {c with ethRxQueues:=n}
  | some .ethTxQueues => intCase (parseInt16 x.optarg) fun n => {c with ethTxQueues:=n}
  | some .vhostRxCores => intCase (parseInt16 x.optarg) fun n => {c with vhostRxCores:=n}
  | some .vhostTxCores => intCase (parseInt16 x.optarg) fun n => {c with vhostTxCores:=n}
  | some .showDash => intCase (parseInt8 x.optarg) fun n => {c with showDash:=n}
  -- portmask has no case of its own
  | some .portmask | none => (-1,c)

/-- `parse_config` over the results of getopt_long. -/
def parseConfig (lib : Libc) : ConfigT → List GetOpt → Int × ConfigT
  | c,[] => (0,c)
  | c,x::xs =>
    let r := setOption lib c x
    if r.1≠0 then (-1,r.2) else parseConfig lib r.2 xs

/-- What the argument of an option says about a configuration. -/
def Says (lib : Libc) (cfg : ConfigT) (s : CString) : CfgParam → Prop
  | .portmask => False
  | .rxRetry => Denotes s.chars cfg.enableRetry.toNat
  | .rxRetryDelay => Denotes s.chars cfg.burstRxDelayTime.toNat
  | .rxRetryNum => Denotes s.chars cfg.burstRxRetryNum.toNat
  | .mergeable => Denotes s.chars cfg.mergeable.toNat
  | .socketDir => cfg.socketDir=some s ∧ lib.access s=true ∧ s.chars.length < pathMax
  | .nbSockets => Denotes s.chars cfg.nbSockets.toNat
  | .txCsum => Denotes s.chars cfg.enableTxCsum.toNat
  | .tso => Denotes s.chars cfg.enableTso.toNat
  | .client => cfg.clientMode=1
  | .dequeueZeroCopy => cfg.dequeueZeroCopy=1
  | .ipAddr => ∃ a l b,s=cidr a l ∧ Denotes l.chars cfg.ipPrefix.toNat ∧ lib.pton a=some b ∧
      cfg.ip=hostOrder b
  | .otherNodeMac => MacText s.chars cfg.otherNodeMac
  | .ethRxCores => Denotes s.chars cfg.ethRxCores.toNat
  | .ethTxCores => Denotes s.chars cfg.ethTxCores.toNat
  | .ethRxQueues => Denotes s.chars cfg.ethRxQueues.toNat
  | .ethTxQueues => Denotes s.chars cfg.ethTxQueues.toNat
  | .vhostRxCores => Denotes s.chars cfg.vhostRxCores.toNat
  | .vhostTxCores => Denotes s.chars cfg.vhostTxCores.toNat
  | .showDash => Denotes s.chars cfg.showDash.toNat

/-- Configuration c with what an option sets taken from cfg. -/
def copyField (cfg c : ConfigT) : CfgParam → ConfigT
  | .portmask => c
  | .rxRetry => {c with enableRetry:=cfg.enableRetry}
  | .rxRetryDelay => {c with burstRxDelayTime:=cfg.burstRxDelayTime}
  | .rxRetryNum => {c with burstRxRetryNum:=cfg.burstRxRetryNum}
  | .mergeable => {c with mergeable:=cfg.mergeable}
  | .socketDir => {c with socketDir:=cfg.socketDir}
  | .nbSockets => {c with nbSockets:=cfg.nbSockets}
  | .txCsum => {c with enableTxCsum:=cfg.enableTxCsum}
  | .tso => {c with enableTso:=cfg.enableTso}
  | .client => {c with clientMode:=cfg.clientMode}
  | .dequeueZeroCopy => {c with dequeueZeroCopy:=cfg.dequeueZeroCopy}
  | .ipAddr => {c with ip:=cfg.ip,ipPrefix:=cfg.ipPrefix}
  | .otherNodeMac => {c with otherNodeMac:=cfg.otherNodeMac}
  | .ethRxCores => {c with ethRxCores:=cfg.ethRxCores}
  | .ethTxCores => {c with ethTxCores:=cfg.ethTxCores}
  | .ethRxQueues => {c with ethRxQueues:=cfg.ethRxQueues}
  | .ethTxQueues => {c with ethTxQueues:=cfg.ethTxQueues}
  | .vhostRxCores => {c with vhostRxCores:=cfg.vhostRxCores}
  | .vhostTxCores => {c with vhostTxCores:=cfg.vhostTxCores}
  | .showDash => {c with showDash:=cfg.showDash}

def SameOption (cfg c : ConfigT) (o : CfgParam) : Prop := copyField cfg c o=c

section
variable {lib : Libc} {cfg c : ConfigT}

theorem Denotes.stored {w : Nat} {s : CString} {x : BitVec w} (h : Denotes s.chars x.toNat)
    (hw : w ≤ 64) : Umanet.parseInt w s=(0,x) := by
  obtain ⟨h0,hv⟩ := h.parseInt x.isLt hw
  exact Prod.ext h0 (BitVec.eq_of_toNat_eq hv)

theorem Denotes.digits {s : List Char} {n : Nat} (h : Denotes s n) :
    ∀ c∈s,∃ d,digit 10 c=some d := by
  obtain ⟨ds,-,hspell,-⟩ := h
  induction hspell with
  | nil =>
    intro c hc
    cases hc
  | cons hd _ ih =>
    intro c hc
    cases hc with
    | head => exact ⟨_,hd⟩
    | tail _ hc => exact ih c hc

theorem Denotes.not_mem {s : List Char} {n : Nat} (h : Denotes s n) {c : Char}
    (hc : digit 10 c=none) : c∉s := by
  intro hmem
  obtain ⟨d,hd⟩ := h.digits c hmem
  rw [hc] at hd
  cases hd

theorem Denotes.snoc {s : List Char} {n : Nat} (h : Denotes s n) (d : Fin 10) :
    Denotes (s++[hexChar false d]) (10*n+d) := by
  obtain ⟨ds,hne,hspell,hv⟩ := h
  refine ⟨ds++[d.val],by simp,List.rel_append hspell (.cons ?_ .nil),?_⟩
  · revert d
    decide
  · rw [value,List.foldl_append]
    change 10*value 10 ds+d=_
    rw [hv]

theorem exists_denotes (n : Nat) : ∃ s : CString,Denotes s.chars n := by
  have hchars : ∃ s,Denotes s n := by
    induction n using Nat.strongRecOn with
    | ind n ih =>
      by_cases hn : n < 10
      · refine ⟨[hexChar false n],[n],by simp,.cons ?_ .nil,by simp [value]⟩
        have hall : ∀ d : Fin 10,digit 10 (hexChar false d)=some d.val := by decide
        exact hall ⟨n,hn⟩
      · obtain ⟨s,hs⟩ := ih (n/10) (by omega)
        have h := hs.snoc ⟨n%10,Nat.mod_lt _ (by decide)⟩
        rw [show 10*(n/10)+n%10=n from Nat.div_add_mod n 10] at h
        exact ⟨_,h⟩
  obtain ⟨s,hs⟩ := hchars
  exact ⟨⟨s,hs.not_mem (by decide)⟩,hs⟩

theorem setOption_says {s : CString} {o : CfgParam} (h : Says lib cfg s o) :
    setOption lib c ⟨some o,s⟩=(0,copyField cfg c o) := by
  have read16 {x : BitVec 16} (hx : Denotes s.chars x.toNat) : parseInt16 s=(0,x) :=
    hx.stored (by decide)
  have read32 {x : BitVec 32} (hx : Denotes s.chars x.toNat) : parseInt32 s=(0,x) :=
    hx.stored (by decide)
  cases o with
  | portmask => exact h.elim
  | socketDir =>
    obtain ⟨hdir,hacc,hlen⟩ := h
    simp only [setOption,parseSocketDir,copyField,hdir]
    rw [if_neg (by simp [hacc]),if_neg (Nat.not_le.mpr hlen)]
  | client =>
    change cfg.clientMode=1 at h
    simp only [setOption,copyField,h]
  | dequeueZeroCopy =>
    change cfg.dequeueZeroCopy=1 at h
    simp only [setOption,copyField,h]
  | ipAddr =>
    obtain ⟨a,l,b,rfl,hl,hb,hip⟩ := h
    have hlen : parseInt8 l=(0,cfg.ipPrefix) := hl.stored (by decide)
    have hread : parseCidr lib.pton (cidr a l) c.ip c.ipPrefix=(0,cfg.ip,cfg.ipPrefix) := by
      rw [parseCidr_cidr (hl.not_mem (by decide)),hlen,parseCidrAddr,utilParseIpv4_some hb,hip]
      rfl
    simp only [setOption,copyField,hread]
  | otherNodeMac =>
    have hread := parseEtherAddr_text h lib.bare c.otherNodeMac
    simp only [setOption,copyField,hread]
  | showDash =>
    have hread : parseInt8 s=(0,cfg.showDash) := Denotes.stored h (by decide)
    simp only [setOption,copyField,intCase,hread]
  | ethRxCores => simp only [setOption,copyField,intCase,read16 h]
  | ethTxCores => simp only [setOption,copyField,intCase,read16 h]
  | ethRxQueues => simp only [setOption,copyField,intCase,read16 h]
  | ethTxQueues => simp only [setOption,copyField,intCase,read16 h]
  | vhostRxCores => simp only [setOption,copyField,intCase,read16 h]
  | vhostTxCores => simp only [setOption,copyField,intCase,read16 h]
  | _ => simp only [setOption,copyField,intCase,read32 h]

theorem copyField_comm (o o' : CfgParam) :
    copyField cfg (copyField cfg c o) o'=copyField cfg (copyField cfg c o') o := by
  cases o <;> cases o' <;> rfl

theorem copyField_self (o : CfgParam) :
    copyField cfg (copyField cfg c o) o=copyField cfg c o := by
  cases o <;> rfl

theorem copyField_mac (o : CfgParam) : (copyField cfg c o).mac=c.mac := by
  cases o <;> rfl

def GetOpt.Fits (lib : Libc) (cfg : ConfigT) (x : GetOpt) : Prop :=
  ∃ o,x.opt=some o ∧ Says lib cfg x.optarg o

/-- Options that fit a configuration are all accepted and copy it, in their order. -/
theorem parseConfig_fits {l : List GetOpt} (h : ∀ x∈l,GetOpt.Fits lib cfg x) :
    parseConfig lib c l=(0,(l.filterMap GetOpt.opt).foldl (copyField cfg) c) := by
  induction l generalizing c with
  | nil => rfl
  | cons x l ih =>
    obtain ⟨o,ho,hs⟩ := h x List.mem_cons_self
    have hx : setOption lib c x=(0,copyField cfg c o) := by
      have hread := setOption_says (c:=c) hs
      rw [← ho] at hread
      exact hread
    rw [parseConfig,hx,List.filterMap_cons_some ho]
    simp only [ne_eq,not_true_eq_false,if_false,List.foldl_cons]
    exact ih fun y hy => h y (List.mem_cons_of_mem _ hy)

theorem SameOption.copy {o : CfgParam} (h : SameOption cfg c o) (o' : CfgParam) :
    SameOption cfg (copyField cfg c o') o := by
  rw [SameOption,copyField_comm,h]

theorem foldl_agree {os : List CfgParam} {o : CfgParam} (h : o∈os ∨ SameOption cfg c o) :
    SameOption cfg (os.foldl (copyField cfg) c) o := by
  induction os generalizing c with
  | nil =>
    cases h with
    | inl h => cases h
    | inr h => exact h
  | cons o' os ih =>
    apply ih
    cases h with
    | inl h =>
      cases h with
      | head => exact .inr (copyField_self o)
      | tail _ h => exact .inl h
    | inr h => exact .inr (h.copy o')

theorem foldl_mac (os : List CfgParam) : (os.foldl (copyField cfg) c).mac=c.mac := by
  induction os generalizing c with
  | nil => rfl
  | cons o os ih => exact ih.trans (copyField_mac o)

theorem eq_of_agree (h : ∀ o,SameOption cfg c o) (hm : c.mac=cfg.mac) : c=cfg := by
  apply ConfigT.ext
  · exact (congrArg ConfigT.clientMode (h .client)).symm
  · exact (congrArg ConfigT.dequeueZeroCopy (h .dequeueZeroCopy)).symm
  · exact (congrArg ConfigT.mergeable (h .mergeable)).symm
  · exact (congrArg ConfigT.enableRetry (h .rxRetry)).symm
  · exact (congrArg ConfigT.enableTxCsum (h .txCsum)).symm
  · exact (congrArg ConfigT.enableTso (h .tso)).symm
  · exact (congrArg ConfigT.burstRxDelayTime (h .rxRetryDelay)).symm
  · exact (congrArg ConfigT.burstRxRetryNum (h .rxRetryNum)).symm
  · exact (congrArg ConfigT.socketDir (h .socketDir)).symm
  · exact (congrArg ConfigT.nbSockets (h .nbSockets)).symm
  · exact (congrArg ConfigT.ip (h .ipAddr)).symm
  · exact (congrArg ConfigT.ipPrefix (h .ipAddr)).symm
  · exact hm
  · exact (congrArg ConfigT.otherNodeMac (h .otherNodeMac)).symm
  · exact (congrArg ConfigT.ethRxCores (h .ethRxCores)).symm
  · exact (congrArg ConfigT.ethTxCores (h .ethTxCores)).symm
  · exact (congrArg ConfigT.ethRxQueues (h .ethRxQueues)).symm
  · exact (congrArg ConfigT.ethTxQueues (h .ethTxQueues)).symm
  · exact (congrArg ConfigT.vhostRxCores (h .vhostRxCores)).symm
  · exact (congrArg ConfigT.vhostTxCores (h .vhostTxCores)).symm
  · exact (congrArg ConfigT.showDash (h .showDash)).symm

/-- A command line describes a configuration: every option fits it, and what no option is
given for is as init_config leaves it. -/
structure Describes (lib : Libc) (cfg : ConfigT) (l : List GetOpt) : Prop where
  fits : ∀ x∈l,GetOpt.Fits lib cfg x
  default : ∀ o,(∀ x∈l,x.opt≠some o) → SameOption cfg initConfig o
  mac : cfg.mac=initConfig.mac

theorem Describes.read {l : List GetOpt} (h : Describes lib cfg l) :
    parseConfig lib initConfig l=(0,cfg) := by
  rw [parseConfig_fits h.fits]
  apply congrArg (Prod.mk 0)
  apply eq_of_agree
  · intro o
    apply foldl_agree
    by_cases ho : ∃ x∈l,x.opt=some o
    · obtain ⟨x,hx,hopt⟩ := ho
      exact .inl (List.mem_filterMap.mpr ⟨x,hx,hopt⟩)
    · refine .inr (h.default o fun x hx hopt => ho ⟨x,hx,hopt⟩)
  · rw [foldl_mac,h.mac]

/-- What parse_config can produce: flags are 0 or 1, the directory was there and its path is
short, the address is 0/0 or one that inet_pton reads, and the node's own MAC address is that
of init_config. -/
structure Settable (lib : Libc) (cfg : ConfigT) : Prop where
  client : cfg.clientMode=0 ∨ cfg.clientMode=1
  zeroCopy : cfg.dequeueZeroCopy=0 ∨ cfg.dequeueZeroCopy=1
  dir : ∀ s,cfg.socketDir=some s → lib.access s=true ∧ s.chars.length < pathMax
  address : (cfg.ip=0 ∧ cfg.ipPrefix=0) ∨ ∃ a b,lib.pton a=some b ∧ cfg.ip=hostOrder b
  mac : cfg.mac=initConfig.mac

theorem settable_init (lib : Libc) : Settable lib initConfig where
  client:=.inl rfl
  zeroCopy:=.inl rfl
  dir:=fun _ hs => by cases hs
  address:=.inl ⟨rfl,rfl⟩
  mac:=rfl

theorem parseCidrAddr_pton {pton : InetPton} {s : CString} {ip : Ip} {len : Byte}
    (h : (parseCidrAddr pton s ip len).1=0) :
    ∃ b,pton s=some b ∧ (parseCidrAddr pton s ip len).2.1=hostOrder b := by
  cases hb : pton s with
  | none => simp [parseCidrAddr,utilParseIpv4,hb] at h
  | some b =>
    refine ⟨b,rfl,?_⟩
    rw [parseCidrAddr,utilParseIpv4_some hb]
    rfl

/-- An accepted address is one of inet_pton's, with or without a length. -/
theorem parseCidr_pton {pton : InetPton} {s : CString} {ip : Ip} {len : Byte}
    (h : (parseCidr pton s ip len).1=0) :
    ∃ a b,pton a=some b ∧ (parseCidr pton s ip len).2.1=hostOrder b := by
  unfold parseCidr at h ⊢
  cases hk : strrchr '/' s.chars with
  | none =>
    simp only [hk] at h ⊢
    exact ⟨s,parseCidrAddr_pton h⟩
  | some k =>
    simp only [hk] at h ⊢
    split at h
    · cases h
    · next hlen =>
      rw [if_neg hlen]
      exact ⟨s.take k,parseCidrAddr_pton h⟩

theorem Settable.setOption (h : Settable lib c) {x : GetOpt}
    (hx : (Umanet.setOption lib c x).1=0) : Settable lib (Umanet.setOption lib c x).2 := by
  unfold Umanet.setOption at hx ⊢
  split at hx
  case h_7 =>
    simp only [parseSocketDir] at hx ⊢
    split at hx
    · cases hx
    · next hacc =>
      rw [if_neg hacc]
      split at hx
      · cases hx
      · next hlen =>
        rw [if_neg hlen]
        refine ⟨h.client,h.zeroCopy,fun s hs => ?_,h.address,h.mac⟩
        obtain rfl := Option.some.inj hs
        exact ⟨by simpa using hacc,Nat.lt_of_not_le hlen⟩
  case h_9 => exact ⟨.inr rfl,h.zeroCopy,h.dir,h.address,h.mac⟩
  case h_10 => exact ⟨h.client,.inr rfl,h.dir,h.address,h.mac⟩
  case h_11 => exact ⟨h.client,h.zeroCopy,h.dir,.inr (parseCidr_pton hx),h.mac⟩
  case h_20 => cases hx
  case h_21 => cases hx
  all_goals exact ⟨h.client,h.zeroCopy,h.dir,h.address,h.mac⟩

theorem parseConfig_settable {l : List GetOpt} (h : Settable lib c)
    (hl : (parseConfig lib c l).1=0) : Settable lib (parseConfig lib c l).2 := by
  induction l generalizing c with
  | nil => exact h
  | cons x l ih =>
    rw [parseConfig] at hl ⊢
    by_cases hx : (Umanet.setOption lib c x).1=0
    · rw [if_neg (not_not.mpr hx)] at hl ⊢
      exact ih (h.setOption hx) hl
    · rw [if_pos hx] at hl
      cases hl

theorem exists_says (h : Settable lib cfg) (o : CfgParam) :
    (∃ s,Says lib cfg s o) ∨ SameOption cfg initConfig o := by
  cases o with
  | portmask => exact .inr rfl
  | client =>
    cases h.client with
    | inl h0 => exact .inr (by rw [SameOption,copyField,h0]; rfl)
    | inr h1 => exact .inl ⟨⟨[],by simp⟩,h1⟩
  | dequeueZeroCopy =>
    cases h.zeroCopy with
    | inl h0 => exact .inr (by rw [SameOption,copyField,h0]; rfl)
    | inr h1 => exact .inl ⟨⟨[],by simp⟩,h1⟩
  | socketDir =>
    cases hs : cfg.socketDir with
    | none => exact .inr (by rw [SameOption,copyField,hs]; rfl)
    | some s => exact .inl ⟨s,hs,h.dir s hs⟩
  | ipAddr =>
    obtain ⟨h0,h1⟩ | ⟨a,b,hb,hip⟩ := h.address
    · exact .inr (by rw [SameOption,copyField,h0,h1]; rfl)
    · obtain ⟨l,hl⟩ := exists_denotes cfg.ipPrefix.toNat
      exact .inl ⟨cidr a l,a,l,b,rfl,hl,hb,hip⟩
  | otherNodeMac => exact .inl ⟨printEtherAddr false .colon cfg.otherNodeMac,macText_print ..⟩
  | _ => exact .inl (exists_denotes _)

theorem exists_fits (h : Settable lib cfg) (os : List CfgParam) :
    ∃ l : List GetOpt,(∀ x∈l,GetOpt.Fits lib cfg x) ∧
      ∀ o∈os,(∃ x∈l,x.opt=some o) ∨ SameOption cfg initConfig o := by
  induction os with
  | nil =>
    refine ⟨[],?_,?_⟩
    · intro x hx
      cases hx
    · intro o ho
      cases ho
  | cons o os ih =>
    obtain ⟨l,hfits,hall⟩ := ih
    have tail {l' : List GetOpt} (hsub : ∀ x∈l,x∈l') : ∀ q∈os,
        (∃ x∈l',x.opt=some q) ∨ SameOption cfg initConfig q := by
      intro q hq
      refine (hall q hq).imp_left ?_
      intro ⟨x,hx,hopt⟩
      exact ⟨x,hsub x hx,hopt⟩
    obtain ⟨s,hs⟩ | hagree := exists_says h o
    · refine ⟨⟨some o,s⟩::l,?_,?_⟩
      · exact List.forall_mem_cons.mpr ⟨⟨o,rfl,hs⟩,hfits⟩
      · refine List.forall_mem_cons.mpr ⟨.inl ⟨⟨some o,s⟩,List.mem_cons_self,rfl⟩,?_⟩
        exact tail fun x hx => List.mem_cons_of_mem _ hx
    · refine ⟨l,hfits,List.forall_mem_cons.mpr ⟨.inr hagree,?_⟩⟩
      exact tail fun x hx => hx

theorem exists_describes (h : Settable lib cfg) : ∃ l,Describes lib cfg l := by
  obtain ⟨l,hfits,hall⟩ := exists_fits h cfgParams
  refine ⟨l,hfits,fun o ho => ?_,h.mac⟩
  obtain ⟨x,hx,hopt⟩ | hagree := hall o (mem_cfgParams o)
  · exact absurd hopt (ho x hx)
  · exact hagree

end

/-- A command line that describes a configuration is read as that configuration, whatever the
order of its options and however often they are repeated; and the configurations parse_config
can return are exactly the settable ones. -/
theorem parse_config_reads (lib : Libc) (cfg : ConfigT) :
    (∀ l,Describes lib cfg l → parseConfig lib initConfig l=(0,cfg)) ∧
      ((∃ l,parseConfig lib initConfig l=(0,cfg)) ↔ Settable lib cfg) := by
  refine ⟨fun l hl => hl.read,?_,?_⟩
  · intro ⟨l,hl⟩
    have hset := parseConfig_settable (settable_init lib) (l:=l) (by rw [hl])
    rw [hl] at hset
    exact hset
  · intro hset
    obtain ⟨l,hl⟩ := exists_describes hset
    exact ⟨l,hl.read⟩

def gnuLibc : Libc := ⟨inetPton,true,fun _ => true⟩

/-- `--eth-rx-cores 2 --client --ip-addr 192.168.100.1/24 --eth-rx-cores 02` -/
def nodeOptions : List GetOpt :=
  [⟨some .ethRxCores,⟨['2'],by decide⟩⟩,⟨some .client,⟨[],by decide⟩⟩,
    ⟨some .ipAddr,cidr homeAddr len24⟩,⟨some .ethRxCores,⟨['0','2'],by decide⟩⟩]

def nodeConfig : ConfigT :=
  {initConfig with clientMode:=1,ip:=0xC0A86401,ipPrefix:=24,ethRxCores:=2}

theorem nodeOptions_fits : ∀ x∈nodeOptions,GetOpt.Fits gnuLibc nodeConfig x := by
  simp only [nodeOptions,List.forall_mem_cons]
  refine ⟨⟨_,rfl,[2],by simp,.cons rfl .nil,rfl⟩,⟨_,rfl,rfl⟩,⟨_,rfl,?_⟩,
    ⟨_,rfl,[0,2],by simp,.cons rfl (.cons rfl .nil),rfl⟩,by simp⟩
  exact ⟨homeAddr,len24,![192,168,100,1],rfl,⟨[2,4],by simp,.cons rfl (.cons rfl .nil),rfl⟩,rfl,rfl⟩

theorem parse_config_reads_nodeOptions :
    parseConfig gnuLibc initConfig nodeOptions=(0,nodeConfig) ∧ Settable gnuLibc nodeConfig := by
  obtain ⟨hread,hrange⟩ := parse_config_reads gnuLibc nodeConfig
  have h : parseConfig gnuLibc initConfig nodeOptions=(0,nodeConfig) := by
    refine hread nodeOptions ⟨nodeOptions_fits,fun o ho => ?_,rfl⟩
    cases o with
    | client => exact absurd rfl (ho ⟨some .client,⟨[],by decide⟩⟩ (by simp [nodeOptions]))
    | ipAddr => exact absurd rfl (ho ⟨some .ipAddr,cidr homeAddr len24⟩ (by simp [nodeOptions]))
    | ethRxCores =>
      exact absurd rfl (ho ⟨some .ethRxCores,⟨['2'],by decide⟩⟩ (by simp [nodeOptions]))
    | _ => rfl
  exact ⟨h,hrange.mp ⟨nodeOptions,h⟩⟩

end Umanet
