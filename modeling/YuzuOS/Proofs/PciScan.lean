import YuzuOS.Kernel.Pci
import YuzuOS.Library.Routes

/-! What the scan of the PCI buses lists. The header type that decides how many functions of a
device are looked at is read at the function where the device before was left. -/

namespace YuzuOS.Proofs.PciScan
open YuzuOS.Kernel YuzuOS.Library.Routes

structure Location where
  bus : BitVec 8
  device : Fin 32
  function : Fin 8
  deriving DecidableEq

def Location.addr (location : Location) : BitVec 32 := pciAddrGet location.bus location.device location.function

def bridgeTo (space : PciSpace) (location : Location) : Option (BitVec 8) :=
  if pciClassCodeGet space location.addr = pciClassCodeBridgeDevice ∧
      pciSubclassCodeGet space location.addr = pciSubclassPciToPciBridge then
    some (pciSecondaryBusGet space location.addr)
  else none

def deviceAt (space : PciSpace) (location : Location) : PciDevice where
  addr := location.addr
  deviceId := pciDeviceIdGet space location.addr
  vendorId := pciVendorIdGet space location.addr
  bar0 := pciFieldRead space location.addr pciBar0

def entryAt (space : PciSpace) (location : Location) : Option PciDevice :=
  if pciVendorIdGet space location.addr ≠ pciInvalidVendorId ∧
      pciClassCodeGet space location.addr ≠ pciClassCodeBridgeDevice then
    some (deviceAt space location)
  else none

def Multi (space : PciSpace) (bus : BitVec 8) (device : Fin 32) (function : Fin 8) : Prop :=
  pciHdrTypeGet space (pciAddrGet bus device function) &&& pciDeviceMultiFunc ≠ 0

instance (space : PciSpace) (bus : BitVec 8) (device : Fin 32) (function : Fin 8) :
    Decidable (Multi space bus device function) :=
  inferInstanceAs (Decidable (_ ≠ _))

/-- A function of a bus that is there: the others than the first one are those of a device with several. -/
def Present (space : PciSpace) (bus : BitVec 8) (location : Location) : Prop :=
  location.bus = bus ∧ pciVendorIdGet space location.addr ≠ pciInvalidVendorId ∧
    (location.function = pciFirstFunc ∨ Multi space bus location.device pciFirstFunc)

/-- The function whose header type decides about a device: the last one behind a device with several functions. -/
def probed (space : PciSpace) (bus : BitVec 8) (device : Fin 32) : Fin 8 :=
  if ∃ earlier < device, Multi space bus earlier pciFirstFunc then pciLastFunc else pciFirstFunc

/-- A function of a bus that is looked at. -/
def Looked (space : PciSpace) (bus : BitVec 8) (location : Location) : Prop :=
  location.bus = bus ∧
    (location.function = pciFirstFunc ∨
      location.function ≠ pciLastFunc ∧ Multi space bus location.device (probed space bus location.device))

/-- A function of a bus that can be reached, and no bridge. -/
def Wanted (space : PciSpace) (location : Location) : Prop :=
  (∃ route, Visits (Present space) (bridgeTo space) 0 route location) ∧
    pciClassCodeGet space location.addr ≠ pciClassCodeBridgeDevice

/-- The functions looked at and the bridges among them: no chain of these bridges is endless, one chain leads
to each function wanted, and the others are absent or bridges. -/
structure Sound (space : PciSpace) : Prop where
  ends : Acc (Leads (Looked space) (bridgeTo space)) 0
  found : ∀ location, Wanted space location → ∃! route, Visits (Looked space) (bridgeTo space) 0 route location
  only : ∀ route location, Visits (Looked space) (bridgeTo space) 0 route location →
    pciVendorIdGet space location.addr ≠ pciInvalidVendorId →
    pciClassCodeGet space location.addr ≠ pciClassCodeBridgeDevice → Wanted space location

/-- The functions that the loop looks at, in its order. -/
def visitedFrom (space : PciSpace) (bus : BitVec 8) : List (Fin 32) → Fin 8 → List Location
  | [], _ => []
  | device :: rest, func =>
    if Multi space bus device func then
      ((List.finRange 7).map fun function => ⟨bus, device, function.castSucc⟩) ++ visitedFrom space bus rest pciLastFunc
    else ⟨bus, device, pciFirstFunc⟩ :: visitedFrom space bus rest func

def visited (space : PciSpace) (bus : BitVec 8) : List Location := visitedFrom space bus (List.finRange 32) pciFirstFunc

variable {space : PciSpace} {bus : BitVec 8} {devices : List (Fin 32)} {func : Fin 8} {location : Location}
  {depth : Nat} {pciList : List PciDevice}

theorem addr_toNat : location.addr.toNat =
    2 ^ 31 + (location.bus.toNat * 2 ^ 16 + (location.device.val * 2 ^ 11 + location.function.val * 2 ^ 8)) := by
  obtain ⟨bus, device, function⟩ := location
  have eight := bus.isLt
  have five := device.isLt
  have three := function.isLt
  have low : function.val <<< 8 < 2 ^ 11 := by rw [Nat.shiftLeft_eq]; omega
  have middle : device.val <<< 11 + function.val <<< 8 < 2 ^ 16 := by rw [Nat.shiftLeft_eq, Nat.shiftLeft_eq]; omega
  have high : bus.toNat <<< 16 + (device.val <<< 11 + function.val <<< 8) < 2 ^ 31 := by simp only [Nat.shiftLeft_eq]; omega
  have words : (pciAddrGet bus device function).toNat = bus.toNat <<< 16 ||| device.val <<< 11 ||| function.val <<< 8 ||| 1 <<< 31 := by
    simp only [pciAddrGet, BitVec.toNat_or, BitVec.toNat_shiftLeft, BitVec.toNat_setWidth, BitVec.toNat_ofNat]
    have short {n : Nat} (bound : n < 2 ^ 31) : n % 2 ^ 32 = n := Nat.mod_eq_of_lt (by omega)
    rw [short (by omega : bus.toNat < _), short (by omega : device.val < _), short (by omega : function.val < _),
      short (by omega : bus.toNat <<< 16 < _), short (by omega : device.val <<< 11 < _), short (by omega : function.val <<< 8 < _)]
    rfl
  rw [Location.addr, words, Nat.or_comm, Nat.or_assoc, ← Nat.shiftLeft_add_eq_or_of_lt low, ← Nat.shiftLeft_add_eq_or_of_lt middle,
    ← Nat.shiftLeft_add_eq_or_of_lt high]
  simp only [Nat.shiftLeft_eq]
  omega

theorem addr_injective : Function.Injective Location.addr := by
  intro first second same
  have numbers := congrArg BitVec.toNat same
  rw [addr_toNat, addr_toNat] at numbers
  obtain ⟨bus, device, function⟩ := first
  obtain ⟨bus', device', function'⟩ := second
  have five := device.isLt
  have three := function.isLt
  have five' := device'.isLt
  have three' := function'.isLt
  simp only at numbers
  have buses : bus = bus' := BitVec.eq_of_toNat_eq (by omega)
  have devices : device = device' := Fin.ext (by omega)
  have functions : function = function' := Fin.ext (by omega)
  rw [buses, devices, functions]

/-- An entry tells where it comes from. -/
theorem entry_apart (space : PciSpace) (first second : Location) (value : PciDevice)
    (here : entryAt space first = some value) (there : entryAt space second = some value) : first = second := by
  have address {location : Location} (entry : entryAt space location = some value) : value.addr = location.addr := by
    rw [entryAt, Option.ite_none_right_eq_some] at entry
    rw [← Option.some.inj entry.2]
    rfl
  exact addr_injective ((address here).symm.trans (address there))

theorem functions_mem {device : Fin 32} :
    location ∈ ((List.finRange 7).map fun function => (⟨bus, device, function.castSucc⟩ : Location)) ↔
      location.bus = bus ∧ location.device = device ∧ location.function ≠ 7 := by
  rw [List.mem_map]
  constructor
  · intro found
    obtain ⟨function, -, rfl⟩ := found
    exact ⟨rfl, rfl, (Fin.castSucc_lt_last function).ne⟩
  · intro place
    obtain ⟨rfl, rfl, other⟩ := place
    exact ⟨location.function.castPred other, List.mem_finRange _, by rw [Fin.castSucc_castPred]⟩

/-- The functions of one device in front of those of the others. -/
theorem visitedFrom_cons {device : Fin 32} :
    location ∈ visitedFrom space bus (device :: devices) func ↔
      location.bus = bus ∧ location.device = device ∧
        (location.function = 0 ∨ location.function ≠ 7 ∧ Multi space bus device func) ∨
        location ∈ visitedFrom space bus devices (if Multi space bus device func then 7 else func) := by
  have first : location.function = 0 → location.function ≠ 7 := fun zero => zero ▸ by decide
  by_cases multi : Multi space bus device func
  · rw [visitedFrom, if_pos multi, if_pos multi, List.mem_append, functions_mem]
    simp only [multi, and_true, or_iff_right_of_imp first]
  · rw [visitedFrom, if_neg multi, if_neg multi, List.mem_cons]
    obtain ⟨ownBus, ownDevice, function⟩ := location
    simp only [Location.mk.injEq, multi, and_false, or_false]

/-- In a sorted rest of the devices, the counter is seven behind the first device with several functions. -/
theorem visitedFrom_mem (sorted : devices.Pairwise (· < ·)) (counter : func = 0 ∨ func = 7) :
    location ∈ visitedFrom space bus devices func ↔ location.bus = bus ∧ location.device ∈ devices ∧
      (location.function = 0 ∨ location.function ≠ 7 ∧ Multi space bus location.device
        (if func = 7 ∨ ∃ earlier ∈ devices, earlier < location.device ∧ Multi space bus earlier 0 then 7 else 0)) := by
  induction devices generalizing func with
  | nil => simp [visitedFrom]
  | cons device rest ih =>
    obtain ⟨first, sortedRest⟩ := List.pairwise_cons.mp sorted
    have counters : (if Multi space bus device func then 7 else func) = 0 ∨ (if Multi space bus device func then 7 else func) = 7 := by
      split
      · exact .inr rfl
      · exact counter
    rw [visitedFrom_cons, ih sortedRest counters, List.mem_cons]
    by_cases own : location.device = device
    · subst own
      have outside : location.device ∉ rest := fun member => absurd (first _ member) (lt_irrefl _)
      have none_earlier : ¬∃ earlier ∈ location.device :: rest, earlier < location.device ∧ Multi space bus earlier 0 := by
        intro found
        obtain ⟨earlier, member, less, -⟩ := found
        cases List.mem_cons.mp member with
        | inl same => exact absurd less (same ▸ lt_irrefl _)
        | inr later => exact lt_asymm less (first earlier later)
      have probe :
          (if func = 7 ∨ ∃ earlier ∈ location.device :: rest, earlier < location.device ∧ Multi space bus earlier 0 then 7
           else 0) = func := by
        cases counter with
        | inl zero => rw [if_neg (by rw [zero]; simpa using none_earlier), zero]
        | inr seven => rw [if_pos (.inl seven), seven]
      rw [probe]
      simp only [outside, true_and, false_and, and_false, or_false]
    · have earlier_iff (member : location.device ∈ rest) :
          ((if Multi space bus device func then 7 else func) = 7 ∨
            ∃ earlier ∈ rest, earlier < location.device ∧ Multi space bus earlier 0) ↔
            (func = 7 ∨ ∃ earlier ∈ device :: rest, earlier < location.device ∧ Multi space bus earlier 0) := by
        have less := first _ member
        rw [List.exists_mem_cons_iff]
        cases counter with
        | inl zero =>
          subst zero
          by_cases multi : Multi space bus device 0
          · simp [multi, less]
          · simp [multi]
        | inr seven => simp [seven]
      simp only [own, false_and, and_false, false_or]
      refine and_congr_right fun _ => and_congr_right fun member => ?_
      simp only [earlier_iff member]

theorem visited_mem : location ∈ visited space bus ↔ Looked space bus location := by
  rw [visited, visitedFrom_mem (List.pairwise_lt_finRange 32) (.inl rfl), Looked, probed]
  simp

theorem visitedFrom_device (member : location ∈ visitedFrom space bus devices func) : location.device ∈ devices := by
  induction devices generalizing func with
  | nil => cases member
  | cons device rest ih =>
    rcases visitedFrom_cons.mp member with here | later
    · exact here.2.1 ▸ List.mem_cons_self
    · exact List.mem_cons_of_mem _ (ih later)

theorem visitedFrom_nodup (distinct : devices.Nodup) : (visitedFrom space bus devices func).Nodup := by
  induction devices generalizing func with
  | nil => exact List.nodup_nil
  | cons device rest ih =>
    obtain ⟨outside, distinctRest⟩ := List.nodup_cons.mp distinct
    by_cases multi : Multi space bus device func
    · rw [visitedFrom, if_pos multi, List.nodup_append]
      refine ⟨(List.nodup_finRange 7).map fun first second same => ?_, ih distinctRest, fun location own other later same => ?_⟩
      · exact Fin.castSucc_injective 7 (Location.mk.inj same).2.2
      · have device_eq : location.device = device := (functions_mem.mp own).2.1
        exact outside (device_eq ▸ same ▸ visitedFrom_device later)
    · rw [visitedFrom, if_neg multi, List.nodup_cons]
      exact ⟨fun later => outside (visitedFrom_device later), ih distinctRest⟩

theorem visited_nodup (space : PciSpace) (bus : BitVec 8) : (visited space bus).Nodup :=
  visitedFrom_nodup (List.nodup_finRange 32)

theorem deviceLoop_eq (busScan : BitVec 8 → List PciDevice → Option (List PciDevice)) :
    pciDeviceLoop busScan space bus devices func pciList =
      (visitedFrom space bus devices func).foldlM
        (fun pciList location => pciCheckFunc busScan space location.bus location.device location.function pciList) pciList := by
  induction devices generalizing func pciList with
  | nil => rfl
  | cons device rest ih =>
    have later (func : Fin 8) := funext fun pciList => @ih func pciList
    by_cases multi : Multi space bus device func
    · have bits : pciHdrTypeGet space (pciAddrGet bus device func) &&& pciDeviceMultiFunc ≠ 0 := multi
      rw [visitedFrom, if_pos multi, pciDeviceLoop, if_pos bits, List.foldlM_append, List.foldlM_map, later 7]
      rfl
    · have bits : ¬pciHdrTypeGet space (pciAddrGet bus device func) &&& pciDeviceMultiFunc ≠ 0 := multi
      rw [visitedFrom, if_neg multi, pciDeviceLoop, if_neg bits, List.foldlM_cons, later func]
      rfl

theorem deviceSet_eq : pciDeviceSet space location.bus location.device location.function pciList =
    pciList ++ (entryAt space location).toList := by
  have address : pciAddrGet location.bus location.device location.function = location.addr := rfl
  simp only [pciDeviceSet, entryAt, deviceAt, address]
  by_cases there : pciVendorIdGet space location.addr ≠ pciInvalidVendorId
  · by_cases plain : pciClassCodeGet space location.addr ≠ pciClassCodeBridgeDevice
    · rw [if_pos there, if_pos plain, if_pos ⟨there, plain⟩, Option.toList_some]
    · rw [if_pos there, if_neg plain, if_neg fun both => plain both.2, Option.toList_none, List.append_nil]
  · rw [if_neg there, if_neg fun both => there both.1, Option.toList_none, List.append_nil]

theorem record_behind (entry : Location → Option PciDevice) (behind : List (List Location × Location)) :
    record entry (([], location) :: behind.map fun stop => (location :: stop.1, stop.2)) =
      (entry location).toList ++ record entry behind := by
  rw [record, List.filterMap_cons, List.filterMap_map]
  cases entry location with
  | none => rfl
  | some value => rfl

theorem record_append {α β : Type*} (entry : α → Option β) (first second : List (List α × α)) :
    record entry (first ++ second) = record entry first ++ record entry second := List.filterMap_append

theorem checkFunc_eq {busScan : BitVec 8 → List PciDevice → Option (List PciDevice)}
    {follow : BitVec 8 → Option (List (List Location × Location))}
    (scans : ∀ bus pciList, busScan bus pciList = (follow bus).map fun stops => pciList ++ record (entryAt space) stops) :
    pciCheckFunc busScan space location.bus location.device location.function pciList =
      (stopsAt (bridgeTo space) follow location).map fun stops => pciList ++ record (entryAt space) stops := by
  have address : pciAddrGet location.bus location.device location.function = location.addr := rfl
  rw [pciCheckFunc, deviceSet_eq, stopsAt, bridgeTo, Option.map_map]
  simp only [address]
  split
  · rw [scans, Option.elim_some]
    refine Option.map_congr fun behind _ => ?_
    rw [Function.comp_apply, record_behind, List.append_assoc]
  · exact congrArg (fun more => some (pciList ++ more)) ((record_behind (entryAt space) []).trans (List.append_nil _)).symm

theorem busScan_eq : pciBusScan space depth bus pciList =
    (walk (visited space) (bridgeTo space) depth bus).map fun stops => pciList ++ record (entryAt space) stops := by
  induction depth generalizing bus pciList with
  | zero => rfl
  | succ depth ih =>
    have scans (bus : BitVec 8) (pciList : List PciDevice) := @ih bus pciList
    rw [pciBusScan, deviceLoop_eq, walk, ← visited]
    generalize visited space bus = locations
    induction locations generalizing pciList with
    | nil => simp [gather, record]
    | cons location rest later =>
      rw [List.foldlM_cons, checkFunc_eq scans, gather]
      cases stopsAt (bridgeTo space) (walk (visited space) (bridgeTo space) depth) location with
      | none => rfl
      | some first =>
        rw [Option.map_some, Option.bind_some, Option.map_map]
        refine later.trans (Option.map_congr fun more _ => ?_)
        rw [Function.comp_apply, record_append, List.append_assoc]

theorem looked_visited (space : PciSpace) : (fun bus location => location ∈ visited space bus) = Looked space :=
  funext fun _ => funext fun _ => propext visited_mem

theorem listed_iff (ran : pciBusScan space depth 0 [] = some pciList) {device : PciDevice} :
    device ∈ pciList ↔ ∃ route location, Visits (Looked space) (bridgeTo space) 0 route location ∧
      entryAt space location = some device := by
  rw [busScan_eq] at ran
  obtain ⟨stops, walked, same⟩ := Option.map_eq_some_iff.mp ran
  rw [← same, List.nil_append, record, List.mem_filterMap]
  constructor
  · intro listed
    obtain ⟨⟨route, location⟩, member, entry⟩ := listed
    exact ⟨route, location, looked_visited space ▸ (walk_mem walked).mp member, entry⟩
  · intro visits
    obtain ⟨route, location, visits, entry⟩ := visits
    exact ⟨(route, location), (walk_mem walked).mpr (looked_visited space ▸ visits), entry⟩

theorem present_of_visits {route : List Location}
    (visits : Visits (Present space) (bridgeTo space) bus route location) :
    pciVendorIdGet space location.addr ≠ pciInvalidVendorId := by
  induction route generalizing bus with
  | nil => exact visits.2.1
  | cons first route ih =>
    obtain ⟨-, child, -, later⟩ := visits
    exact ih later

theorem wanted_entry (wanted : Wanted space location) : entryAt space location = some (deviceAt space location) := by
  obtain ⟨⟨route, visits⟩, plain⟩ := wanted
  rw [entryAt, if_pos ⟨present_of_visits visits, plain⟩]

theorem entry_isSome : (entryAt space location).isSome ↔
    pciVendorIdGet space location.addr ≠ pciInvalidVendorId ∧
      pciClassCodeGet space location.addr ≠ pciClassCodeBridgeDevice := by
  rw [entryAt]
  split
  next both => exact iff_of_true rfl both
  next other => exact iff_of_false nofun other

/-- The scan of bus 0 ends and lists each present function of the buses behind it that is no bridge once, and no
other device, if and only if the functions that it looks at are sound. -/
theorem pci_bus_scan_lists_iff (space : PciSpace) :
    (∃ depth pciList, pciBusScan space depth 0 [] = some pciList ∧ pciList.Nodup ∧
      ∀ device, device ∈ pciList ↔
        ∃ location, Wanted space location ∧ device = deviceAt space location) ↔ Sound space := by
  have recorded (location : Location) (wanted : Wanted space location) : (entryAt space location).isSome :=
    Option.isSome_of_eq_some (wanted_entry wanted)
  have records := walk_records_iff (bridgeTo space) 0 (visited_nodup space) recorded (entry_apart space)
  have origin (device : PciDevice) : (∃ location, Wanted space location ∧ device = deviceAt space location) ↔
      ∃ location, Wanted space location ∧ entryAt space location = some device :=
    exists_congr fun location => and_congr_right fun wanted => by rw [wanted_entry wanted, Option.some.injEq, eq_comm]
  have scans : (∃ depth pciList, pciBusScan space depth 0 [] = some pciList ∧ pciList.Nodup ∧
      ∀ device, device ∈ pciList ↔ ∃ location, Wanted space location ∧ device = deviceAt space location) ↔
      ∃ depth stops, walk (visited space) (bridgeTo space) depth 0 = some stops ∧ (record (entryAt space) stops).Nodup ∧
        ∀ device, device ∈ record (entryAt space) stops ↔ ∃ location, Wanted space location ∧ entryAt space location = some device := by
    simp only [busScan_eq, Option.map_eq_some_iff, List.nil_append, origin]
    constructor
    · intro right
      obtain ⟨depth, pciList, ⟨stops, walked, rfl⟩, lists⟩ := right
      exact ⟨depth, stops, walked, lists⟩
    · intro right
      obtain ⟨depth, stops, walked, lists⟩ := right
      exact ⟨depth, _, ⟨stops, walked, rfl⟩, lists⟩
  rw [scans, records, looked_visited]
  simp only [entry_isSome]
  constructor
  · intro sound
    exact ⟨sound.1, sound.2.1, fun route location visits there plain => sound.2.2 route location visits ⟨there, plain⟩⟩
  · intro sound
    exact ⟨sound.ends, sound.found, fun route location visits both => sound.only route location visits both.1 both.2⟩

/-- The bridges that are there lead to a finite tree of buses. -/
structure BusTree (space : PciSpace) : Prop where
  finite : Acc (Leads (Present space) (bridgeTo space)) 0
  once : ∀ location first second, Visits (Present space) (bridgeTo space) 0 first location →
    Visits (Present space) (bridgeTo space) 0 second location → first = second

/-- A function that can be listed or leads to another bus. -/
def Matters (space : PciSpace) (location : Location) : Prop :=
  (entryAt space location).isSome ∨ (bridgeTo space location).isSome

/-- On a tree of buses it is enough that the functions looked at on the buses of the tree are those that are there. -/
theorem sound_of_tree (tree : BusTree space)
    (agree : ∀ bus, Relation.ReflTransGen (fun bus sub => Leads (Present space) (bridgeTo space) sub bus) 0 bus →
      ∀ location, Matters space location → (Looked space bus location ↔ Present space bus location)) : Sound space := by
  have follows (location : Location) (leads : (bridgeTo space location).isSome) : Matters space location := .inr leads
  have routes {location : Location} (matters : Matters space location) (route : List Location) :
      Visits (Looked space) (bridgeTo space) 0 route location ↔ Visits (Present space) (bridgeTo space) 0 route location :=
    visits_congr agree follows matters
  refine ⟨ends_congr agree follows tree.finite, fun location wanted => ?_, fun route location visits there plain => ?_⟩
  · have matters : Matters space location := .inl (Option.isSome_of_eq_some (wanted_entry wanted))
    obtain ⟨⟨route, visits⟩, -⟩ := wanted
    exact ⟨route, (routes matters route).mpr visits,
      fun second other => tree.once location second route ((routes matters second).mp other) visits⟩
  · have matters : Matters space location := .inl (entry_isSome.mpr ⟨there, plain⟩)
    exact ⟨⟨route, (routes matters route).mp visits⟩, plain⟩

/-- The last function is never looked at. -/
theorem never_last {route : List Location} (visits : Visits (Looked space) (bridgeTo space) bus route location) :
    location.function ≠ 7 := by
  induction route generalizing bus with
  | nil =>
    cases visits.2 with
    | inl first => exact first ▸ by decide
    | inr other => exact other.1
  | cons first route ih =>
    obtain ⟨-, child, -, later⟩ := visits
    exact ih later

/-- One device of which the first function and the last one are there. -/
def exampleSpace : PciSpace := fun address =>
  if address = 0x80000000 then 0x00011234
  else if address = 0x8000000C then 0x00800000
  else if address = 0x80000700 then 0x00021234
  else 0xFFFFFFFF

theorem exampleSpace_class (addr : BitVec 32) : pciClassCodeGet exampleSpace addr ≠ pciClassCodeBridgeDevice := by
  rw [pciClassCodeGet, pciFieldRead, exampleSpace]
  split
  · decide
  · split
    · decide
    · split
      · decide
      · decide

theorem exampleSpace_tree : BusTree exampleSpace := by
  have plain (location : Location) : bridgeTo exampleSpace location = none := by
    rw [bridgeTo, if_neg fun bridge => exampleSpace_class _ bridge.1]
  have direct {location : Location} {route : List Location}
      (visits : Visits (Present exampleSpace) (bridgeTo exampleSpace) 0 route location) :
      route = [] := by
    cases route with
    | nil => rfl
    | cons bridge route =>
      obtain ⟨-, child, leads, -⟩ := visits
      exact absurd (leads.symm.trans (plain bridge)) nofun
  refine ⟨Acc.intro 0 fun child leads => ?_, fun location first second here there => (direct here).trans (direct there).symm⟩
  obtain ⟨bridge, -, leads⟩ := leads
  exact absurd (leads.symm.trans (plain bridge)) nofun

/-- The last function of a device with several functions is not listed. -/
theorem pci_bus_scan_misses_last :
    ¬∀ space, BusTree space → ∃ depth pciList, pciBusScan space depth 0 [] = some pciList ∧ pciList.Nodup ∧
    ∀ device, device ∈ pciList ↔ ∃ location, Wanted space location ∧ device = deviceAt space location := by
  intro right
  obtain ⟨depth, pciList, ran, -, lists⟩ := right exampleSpace exampleSpace_tree
  have there : Present exampleSpace 0 ⟨0, 0, 7⟩ := ⟨rfl, by decide, .inr (by decide)⟩
  have wanted : Wanted exampleSpace ⟨0, 0, 7⟩ := ⟨⟨[], there⟩, by decide⟩
  obtain ⟨route, location, visits, entry⟩ := (listed_iff ran).mp ((lists _).mpr ⟨_, wanted, rfl⟩)
  have same := entry_apart exampleSpace _ _ _ entry (wanted_entry wanted)
  exact never_last visits (congrArg Location.function same)

end YuzuOS.Proofs.PciScan
