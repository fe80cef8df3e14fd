import Umanet.Fast.Frame

namespace Umanet

/-- `ip_last_octet_to_vid`: an int for every last octet, -1 for no entry. -/
abbrev Route := Byte → Int

/-- The array before init_route_table runs: static storage is zero. -/
def Route.zeroed : Route := fun _ => 0

def initRouteTable : Route := fun _ => -1

def findVidByIp (r : Route) (ip : Ip) : Int := r (octet ip)

/-- Return code and table of add_route_entry. -/
def addRouteEntry (r : Route) (vid : Vid) (ip : Ip) : Int × Route :=
  if r (octet ip)≠-1 then (-1,r) else (0,Function.update r (octet ip) vid.val)

/-- Return code and table of remove_route_entry; the owner is not looked at. -/
def removeRouteEntry (r : Route) (ip : Ip) : Int × Route :=
  if r (octet ip)=-1 then (-1,r) else (0,Function.update r (octet ip) (-1))

/-- Source address link_vmdq takes from a frame, if its EtherType has one. -/
def learnedIp (d : Data) : Option Ip :=
  if etherType d=etherTypeIpv4 then some (ipSrcAddr d)
  else if etherType d=etherTypeArp then some (arpSip d)
  else none

/-- `(vdev->ip & 0xff) - 2` -/
def vmIdOf (ip : Ip) : Int := (octet ip).toNat-2

namespace VhostDev

def learnMac (dev : VhostDev) (d : Data) : VhostDev := {dev with mac:=srcMac d}

/-- The store to `vdev->ip`, in the two branches that have one. -/
def learnIp (dev : VhostDev) (d : Data) : VhostDev :=
  match learnedIp d with
  | some ip => {dev with ip:=ip}
  | none => dev

/-- The store to `vdev->vm_id`, which reads `vdev->ip` back. -/
def learnVmId (dev : VhostDev) (d : Data) : VhostDev :=
  match learnedIp d with
  | some _ => {dev with vmId:=vmIdOf dev.ip}
  | none => dev

def setReady (dev : VhostDev) (r : Ready) : VhostDev := {dev with ready:=r}

/-- Address of the device after link_vmdq has looked at frame d. -/
def ipAfter (dev : VhostDev) (d : Data) : Ip := (learnedIp d).getD dev.ip

theorem learnIp_ip (dev : VhostDev) (d : Data) : (dev.learnIp d).ip=dev.ipAfter d := by
  unfold learnIp ipAfter
  cases learnedIp d <;> rfl

@[simp] theorem learnMac_vid (dev : VhostDev) (d : Data) : (dev.learnMac d).vid=dev.vid := rfl
@[simp] theorem learnMac_ipAfter (dev : VhostDev) (d : Data) :
    (dev.learnMac d).ipAfter d=dev.ipAfter d := rfl

@[simp] theorem learnIp_vid (dev : VhostDev) (d : Data) : (dev.learnIp d).vid=dev.vid := by
  unfold learnIp
  cases learnedIp d <;> rfl

@[simp] theorem learnIp_mac (dev : VhostDev) (d : Data) : (dev.learnIp d).mac=dev.mac := by
  unfold learnIp
  cases learnedIp d <;> rfl

@[simp] theorem learnVmId_vid (dev : VhostDev) (d : Data) : (dev.learnVmId d).vid=dev.vid := by
  unfold learnVmId
  cases learnedIp d <;> rfl

@[simp] theorem learnIp_ready (dev : VhostDev) (d : Data) :
    (dev.learnIp d).ready=dev.ready := by
  unfold learnIp
  split <;> rfl

@[simp] theorem learnVmId_ready (dev : VhostDev) (d : Data) :
    (dev.learnVmId d).ready=dev.ready := by
  unfold learnVmId
  split <;> rfl

@[simp] theorem learnVmId_ip (dev : VhostDev) (d : Data) : (dev.learnVmId d).ip=dev.ip := by
  unfold learnVmId
  cases learnedIp d <;> rfl

end VhostDev

/-- link_vmdq executed without interruption: device and route table. -/
def linkVmdq (dev : VhostDev) (r : Route) (d : Data) : VhostDev × Route :=
  let dev' := ((dev.learnMac d).learnIp d).learnVmId d
  (dev'.setReady .rx,(addRouteEntry r dev'.vid dev'.ip).2)

/-- unlink_vmdq executed without interruption: device and route table. -/
def unlinkVmdq (dev : VhostDev) (r : Route) : VhostDev × Route :=
  if dev.ready=.rx then
    ({dev with mac:=fun _ => 0,ip:=0,ready:=.safeRemove},(removeRouteEntry r dev.ip).2)
  else (dev.setReady .safeRemove,r)

theorem linkVmdq_dev (dev : VhostDev) (r : Route) (d : Data) :
    (linkVmdq dev r d).1.vid=dev.vid ∧ (linkVmdq dev r d).1.ip=dev.ipAfter d ∧
      (linkVmdq dev r d).1.ready=.rx := by
  refine ⟨?_,?_,rfl⟩
  · simp [linkVmdq,VhostDev.setReady]
  · simp [linkVmdq,VhostDev.setReady,VhostDev.learnIp_ip]

/-- The entry of the learned address is filled if it was free; no other changes. -/
theorem linkVmdq_mac (dev : VhostDev) (r : Route) (d : Data) :
    (linkVmdq dev r d).1.mac=srcMac d := by
  simp only [linkVmdq,VhostDev.setReady,VhostDev.learnVmId,VhostDev.learnIp]
  cases learnedIp d <;> rfl

theorem linkVmdq_route (dev : VhostDev) (r : Route) (d : Data) (o : Byte) :
    (linkVmdq dev r d).2 o=
      if o=octet (dev.ipAfter d) ∧ r o=-1 then (dev.vid.val : Int) else r o := by
  simp only [linkVmdq,addRouteEntry,VhostDev.learnVmId_ip,VhostDev.learnIp_ip,
    VhostDev.learnMac_ipAfter,VhostDev.learnVmId_vid,VhostDev.learnIp_vid,VhostDev.learnMac_vid]
  by_cases ho : o=octet (dev.ipAfter d)
  · subst ho
    by_cases hr : r (octet (dev.ipAfter d))=-1 <;> simp [hr]
  · by_cases hr : r (octet (dev.ipAfter d))=-1 <;> simp [hr,ho]

theorem unlinkVmdq_dev (dev : VhostDev) (r : Route) :
    (unlinkVmdq dev r).1.vid=dev.vid ∧ (unlinkVmdq dev r).1.ready=.safeRemove := by
  unfold unlinkVmdq
  split <;> exact ⟨rfl,rfl⟩

theorem unlinkVmdq_vmId (dev : VhostDev) (r : Route) : (unlinkVmdq dev r).1.vmId=dev.vmId := by
  unfold unlinkVmdq
  split <;> rfl

theorem unlinkVmdq_route (dev : VhostDev) (r : Route) (o : Byte) :
    (unlinkVmdq dev r).2 o=if dev.ready=.rx ∧ o=octet dev.ip then -1 else r o := by
  unfold unlinkVmdq removeRouteEntry
  by_cases hd : dev.ready=.rx
  · by_cases hr : r (octet dev.ip)=-1
    · by_cases ho : o=octet dev.ip <;> simp [hd,hr,ho]
    · by_cases ho : o=octet dev.ip <;> simp [hd,hr,ho]
  · simp [hd]

/-- An address that another device already has a route for. -/
def Taken (r : Route) (vid : Vid) (ip : Ip) : Prop := r (octet ip)≠-1 ∧ r (octet ip)≠vid.val

/-- link_vmdq ends learning only with a working route: an address of the frame that resolves
to the device. A frame without a usable address, or with a taken one, leaves it learning.
What makes an address usable is left open. -/
def EndsWithRoute (usable : Ip → Prop) (dev : VhostDev) (r : Route) (d : Data) : Prop :=
  ((linkVmdq dev r d).1.ready=.rx →
    learnedIp d=some (linkVmdq dev r d).1.ip ∧
      findVidByIp (linkVmdq dev r d).2 (linkVmdq dev r d).1.ip=(linkVmdq dev r d).1.vid.val) ∧
  ((∀ ip,learnedIp d=some ip → ¬usable ip ∨ Taken r dev.vid ip) →
    (linkVmdq dev r d).1.ready=.macLearning)

theorem linkVmdq_find (dev : VhostDev) (r : Route) (d : Data) :
    findVidByIp (linkVmdq dev r d).2 (linkVmdq dev r d).1.ip=dev.vid.val ↔
      ¬Taken r dev.vid (dev.ipAfter d) := by
  rw [(linkVmdq_dev dev r d).2.1,findVidByIp,linkVmdq_route]
  unfold Taken
  by_cases hr : r (octet (dev.ipAfter d))=-1
  · simp [hr]
  · simp [hr]

/-- For every device, route table and frame: learning ends with a working route exactly when
the frame is IPv4 or ARP with a usable source address that no other device has a route for.
The store to `ready` depends on nothing, so no other frame leaves the device learning. -/
theorem link_ends_with_route_iff (usable : Ip → Prop) (dev : VhostDev) (r : Route) (d : Data) :
    EndsWithRoute usable dev r d ↔
      ∃ ip,learnedIp d=some ip ∧ usable ip ∧ ¬Taken r dev.vid ip := by
  obtain ⟨hvid,hip,hready⟩ := linkVmdq_dev dev r d
  have hfind := linkVmdq_find dev r d
  rw [hip] at hfind
  unfold EndsWithRoute
  rw [hvid,hip,hready,hfind]
  constructor
  · rintro ⟨hroute,hlearn⟩
    obtain ⟨hsome,-⟩ := hroute rfl
    have hgood : ¬∀ ip,learnedIp d=some ip → ¬usable ip ∨ Taken r dev.vid ip := by
      intro hbad
      cases hlearn hbad
    push Not at hgood
    obtain ⟨ip,hl,hu,ht⟩ := hgood
    exact ⟨ip,hl,hu,ht⟩
  · rintro ⟨ip,hl,hu,ht⟩
    have hafter : dev.ipAfter d=ip := by rw [VhostDev.ipAfter,hl,Option.getD_some]
    rw [hafter]
    refine ⟨fun _ => ⟨hl,ht⟩,fun hbad => ?_⟩
    rcases hbad ip hl with h | h
    · exact absurd hu h
    · exact absurd h ht

/-- An IPv6 neighbour solicitation, as far as link_vmdq reads it. -/
def ipv6Frame : Data := fun o => if o=12 then 0x86 else if o=13 then 0xDD else 0

def usedTable : Route := Function.update initRouteTable 7 3

/-- A frame without an address gives the new device 5 the route of 0.0.0.0 and ends its
learning; so does a frame of 192.168.100.7 that is the address of device 3, and
the address does not resolve to device 5. -/
theorem link_without_route :
    learnedIp ipv6Frame=none ∧ (linkVmdq (.fresh 5) initRouteTable ipv6Frame).1.ready=.rx ∧
      findVidByIp (linkVmdq (.fresh 5) initRouteTable ipv6Frame).2 0=5 ∧
      learnedIp (ipv4Frame 7 1)=some 0xC0A86407 ∧
      (linkVmdq (.fresh 5) usedTable (ipv4Frame 7 1)).1.ready=.rx ∧
      findVidByIp (linkVmdq (.fresh 5) usedTable (ipv4Frame 7 1)).2 0xC0A86407=3 ∧
      ¬EndsWithRoute (fun _ => True) (.fresh 5) initRouteTable ipv6Frame := by
  refine ⟨by decide +kernel,rfl,by decide +kernel,by decide +kernel,rfl,by decide +kernel,?_⟩
  intro h
  have hsome := (h.1 rfl).1
  have hnone : learnedIp ipv6Frame=none := by decide +kernel
  rw [hnone] at hsome
  cases hsome

end Umanet
