import Mathlib.Data.List.Forall2
import Wnu.Lib.Output
import Wnu.Runs.Loops
import Wnu.Sata.BlockRead
import Wnu.Sata.Scan

/-! # The ports of the controllers

The ports that a controller implements are listed when it is set up and again on request.
Both walks read the same registers of the same controllers in the same order, and write to
none.
-/

namespace Wnu.Sata

open Memory Lib Text Runs

/-- `PCI_PROGIF_AHCI` -/
abbrev progIfAhci : UInt8 := 0x01

abbrev portSig : UInt64 := 0x24

abbrev portSsts : UInt64 := 0x28

/-- A walk in progress: the number of registers read before it and in it, the registers that it has
read with their values, and what it has printed. -/
structure Walk where
  reads : ℕ
  log : List (UInt64 × UInt32)
  output : List UInt8

variable (pf : Platform) (dev : Answers) (literalAt : String → UInt64)

namespace Walk

/-- `mmio_read32` -/
def read32 (base offset : UInt64) (w : Walk) : UInt32 × Walk :=
  let value := dev w.reads (base + offset)
  (value, { w with reads := w.reads + 1, log := w.log ++ [(base + offset, value)] })

def put (bytes : List UInt8) (w : Walk) : Walk := { w with output := w.output ++ bytes }

end Walk

abbrev Arg.num (n : ℕ) : Arg := .num n

def walkPorts (bar5 pi : UInt32) (row : ℕ → UInt32 → UInt32 → List UInt8) (w : Walk) : Walk :=
  forLoop 32 (fun port w =>
    if pi &&& ((1 : UInt32) <<< UInt32.ofNat port) = 0 then w
    else
      let (sig, w) := w.read32 dev (portBase pf bar5 port) portSig
      let (ssts, w) := w.read32 dev (portBase pf bar5 port) portSsts
      w.put (row port sig ssts)) w

def surveyPorts (bar5 : UInt32) (head : UInt32 → UInt32 → List UInt8)
    (row : ℕ → UInt32 → UInt32 → List UInt8) (w : Walk) : Walk :=
  let (cap, w) := w.read32 dev (abarVirt pf bar5) regCap
  let (pi, w) := w.read32 dev (abarVirt pf bar5) regPi
  walkPorts pf dev bar5 pi row (w.put (head cap pi))

/-- `bar[5]` -/
def CtrlInfo.bar5 (ctrl : CtrlInfo) : UInt32 := ctrl.bar.get 5

/-! ## Setting up -/

section Probe

variable (ctrl : CtrlInfo) (index : ℕ)

/-- `sata_print_controller` -/
def printController : List UInt8 :=
  printed "sata%u: bus=%u slot=%u func=%u vendor=0x%x device=0x%x prog_if=0x%x\n"
      [.num index, .num ctrl.bus.toNat, .num ctrl.slot.toNat, .num ctrl.func.toNat,
        .num ctrl.vendorId.toNat, .num ctrl.deviceId.toNat, .num ctrl.progIf.toNat] ++
    (List.finRange 6).flatMap fun i =>
      printed "  BAR%u = 0x%x\n" [.num i.val, .num ctrl.bar[i].toNat]

def probeNotAhci : List UInt8 :=
  printed "sata%u: not AHCI, prog_if=0x%x\n" [.num index, .num ctrl.progIf.toNat]

def probeNoBar : List UInt8 := printed "sata%u: missing AHCI BAR5\n" [.num index]

def probeIoBar : List UInt8 :=
  printed "sata%u: BAR5 is I/O space, expected MMIO\n" [.num index]

def probeHead (cap pi : UInt32) : List UInt8 :=
  printed "sata%u: AHCI abar_phys=0x%x cap=0x%x pi=0x%x\n"
    [.num index, .num (ctrl.bar5 &&& 0xfffffff0).toNat, .num cap.toNat, .num pi.toNat]

def probeRow (port : ℕ) (sig ssts : UInt32) : List UInt8 :=
  printed "  port %u: sig=0x%x ssts=0x%x\n" [.num port, .num sig.toNat, .num ssts.toNat]

/-- `sata_probe_ahci_controller` -/
def probeAhciController (w : Walk) : Walk :=
  if ctrl.progIf ≠ progIfAhci then w.put (probeNotAhci ctrl index)
  else
    let bar5 := ctrl.bar5
    if bar5 = 0 then w.put (probeNoBar index)
    else if bar5 &&& 1 ≠ 0 then w.put (probeIoBar index)
    else surveyPorts pf dev bar5 (probeHead ctrl index) probeRow w

end Probe

/-! ## Listing -/

/-- `ahci_device_type` -/
def deviceType (sig : UInt32) : String :=
  if sig = 0x00000101 then "SATA"
  else if sig = 0xeb140101 then "ATAPI"
  else if sig = 0xc33c0101 then "SEMB"
  else if sig = 0x96690101 then "PM"
  else "UNKNOWN"

/-- `ahci_link_state` -/
def linkState (ssts : UInt32) : String :=
  let det := ssts &&& 0x0f
  if det = 0 then "no-device"
  else if det = 1 then "present-no-phy"
  else if det = 3 then "online"
  else if det = 4 then "offline"
  else "unknown"

def literalArg (s : String) : Arg := .str (literalAt s) (ascii s)

section List

variable (ctrl : CtrlInfo) (i : ℕ)

def listNonAhci : List UInt8 :=
  printed "sata%u controller non-ahci  %u:%u.%u       vendor=0x%x device=0x%x\n"
    [.num i, .num ctrl.bus.toNat, .num ctrl.slot.toNat, .num ctrl.func.toNat,
      .num ctrl.vendorId.toNat, .num ctrl.deviceId.toNat]

def listBadBar : List UInt8 :=
  printed "sata%u controller bad-bar   %u:%u.%u       BAR5=0x%x\n"
    [.num i, .num ctrl.bus.toNat, .num ctrl.slot.toNat, .num ctrl.func.toNat,
      .num ctrl.bar5.toNat]

def listHead (cap pi : UInt32) : List UInt8 :=
  printed "sata%u controller ahci      %u:%u.%u       abar=0x%x pi=0x%x cap=0x%x\n"
    [.num i, .num ctrl.bus.toNat, .num ctrl.slot.toNat, .num ctrl.func.toNat,
      .num (ctrl.bar5 &&& 0xfffffff0).toNat, .num pi.toNat, .num cap.toNat]

def listRow (port : ℕ) (sig ssts : UInt32) : List UInt8 :=
  printed "sd%c    %-8s  %-10s  %u:%u.%u       port=%u sig=0x%x ssts=0x%x\n"
    [.num (UInt8.ofNat (97 + port)).toInt8.toInt, literalArg literalAt (deviceType sig),
      literalArg literalAt (linkState ssts), .num ctrl.bus.toNat, .num ctrl.slot.toNat,
      .num ctrl.func.toNat, .num port, .num sig.toNat, .num ssts.toNat]

/-- The body of the loop of `wnu_sata_print_devices`. -/
def listController (w : Walk) : Walk :=
  if ctrl.progIf ≠ progIfAhci then w.put (listNonAhci ctrl i)
  else
    let bar5 := ctrl.bar5
    if bar5 = 0 ∨ bar5 &&& 1 ≠ 0 then w.put (listBadBar ctrl i)
    else surveyPorts pf dev bar5 (listHead ctrl i) (listRow literalAt ctrl) w

end List

def heading : List UInt8 := ascii "NAME   TYPE      STATE       BUS:SLOT.FUNC  INFO\n"

def emptyLine : List UInt8 :=
  ascii "none   -         -           -              no SATA/AHCI controllers found\n"

/-- What `sata_scan_pci` has printed. -/
def scanText (t : Table) : List UInt8 := t.printed.reverse.flatMap ascii

/-- `wnu_sata_print_devices` -/
def printDevices (cfg : Pci.ConfigSpace) (t : Table) (w : Walk) : Table × Walk :=
  let t := scanPci cfg { t with printed := [] }
  let w := w.put (scanText t)
  if t.count = 0 then (t, (w.put heading).put emptyLine)
  else
    (t, forLoop t.count (fun i => listController pf dev literalAt (t.ctrls i) i) (w.put heading))

/-! ## What is read -/

def CtrlInfo.Mapped (ctrl : CtrlInfo) : Prop :=
  ctrl.progIf = progIfAhci ∧ ctrl.bar5 ≠ 0 ∧ ctrl.bar5 &&& 1 = 0

instance (ctrl : CtrlInfo) : Decidable ctrl.Mapped := inferInstanceAs (Decidable (_ ∧ _))

def implementedBelow (pi : UInt32) (n : ℕ) : List ℕ :=
  (List.range n).filter fun port => pi &&& ((1 : UInt32) <<< UInt32.ofNat port) ≠ 0

/-- What has been read of a controller: its capabilities, the ports that it implements, and of each
of these its signature and its state. -/
structure Reading where
  cap : UInt32
  pi : UInt32
  port : ℕ → UInt32 × UInt32

def portsLog (bar5 pi : UInt32) (n : ℕ) (port : ℕ → UInt32 × UInt32) : List (UInt64 × UInt32) :=
  (implementedBelow pi n).flatMap fun p =>
    [(portBase pf bar5 p + portSig, (port p).1), (portBase pf bar5 p + portSsts, (port p).2)]

def Reading.log (r : Reading) (bar5 : UInt32) : List (UInt64 × UInt32) :=
  (abarVirt pf bar5 + regCap, r.cap) :: (abarVirt pf bar5 + regPi, r.pi) ::
    portsLog pf bar5 r.pi 32 r.port

def portsText (pi : UInt32) (n : ℕ) (row : ℕ → UInt32 → UInt32 → List UInt8)
    (port : ℕ → UInt32 × UInt32) : List UInt8 :=
  (implementedBelow pi n).flatMap fun p => row p (port p).1 (port p).2

variable {pf dev literalAt} {ctrl : CtrlInfo} {w : Walk}

theorem implementedBelow_succ (pi : UInt32) (n : ℕ) : implementedBelow pi (n + 1) =
    implementedBelow pi n ++
      if pi &&& ((1 : UInt32) <<< UInt32.ofNat n) = 0 then [] else [n] := by
  rw [implementedBelow, List.range_succ, List.filter_append, implementedBelow]
  split
  · rename_i hclear
    simp [hclear]
  · rename_i hset
    simp [hset]

theorem lt_of_mem_implementedBelow {pi : UInt32} {n p : ℕ} (h : p ∈ implementedBelow pi n) :
    p < n := List.mem_range.mp (List.mem_of_mem_filter h)

theorem walkPorts_spec (bar5 pi : UInt32) (row : ℕ → UInt32 → UInt32 → List UInt8) (w : Walk) :
    ∃ port, (walkPorts pf dev bar5 pi row w).log = w.log ++ portsLog pf bar5 pi 32 port ∧
      (walkPorts pf dev bar5 pi row w).output = w.output ++ portsText pi 32 row port := by
  rw [walkPorts]
  apply forLoop_invariant (P := fun n (w' : Walk) => ∃ port,
    w'.log = w.log ++ portsLog pf bar5 pi n port ∧
      w'.output = w.output ++ portsText pi n row port)
  · exact ⟨fun _ => (0, 0), (List.append_nil _).symm, (List.append_nil _).symm⟩
  · rintro n - w' ⟨port, hlog, houtput⟩
    simp only [portsLog, portsText, implementedBelow_succ] at hlog houtput ⊢
    split
    · exact ⟨port, by rw [hlog, List.append_nil], by rw [houtput, List.append_nil]⟩
    · generalize hread : (dev w'.reads (portBase pf bar5 n + portSig),
        dev (w'.reads + 1) (portBase pf bar5 n + portSsts)) = read
      have hold : ∀ p ∈ implementedBelow pi n, Function.update port n read p = port p :=
        fun p hp => Function.update_of_ne (lt_of_mem_implementedBelow hp).ne _ _
      refine ⟨Function.update port n read, ?_, ?_⟩
      · rw [List.flatMap_append, List.flatMap_congr fun p hp => by rw [hold p hp],
          ← List.append_assoc, ← hlog, List.flatMap_singleton, Function.update_self, ← hread]
        simp [Walk.read32, Walk.put]
      · rw [List.flatMap_append, List.flatMap_congr fun p hp => by rw [hold p hp],
          ← List.append_assoc, ← houtput, List.flatMap_singleton, Function.update_self, ← hread]
        simp [Walk.read32, Walk.put]

/-! ## Walks over the table -/

/-- What a walk prints: of a controller that is not driven through memory, of one that is, with its
capabilities and its ports, and of a port. -/
structure Style where
  other : CtrlInfo → ℕ → List UInt8
  head : CtrlInfo → ℕ → UInt32 → UInt32 → List UInt8
  row : CtrlInfo → ℕ → UInt32 → UInt32 → List UInt8

/-- The style of `sata_probe_ahci_controller`. -/
def probing : Style where
  other ctrl i :=
    if ctrl.progIf ≠ progIfAhci then probeNotAhci ctrl i
    else if ctrl.bar5 = 0 then probeNoBar i
    else probeIoBar i
  head := probeHead
  row _ := probeRow

/-- The style of `wnu_sata_print_devices`. -/
def listing (literalAt : String → UInt64) : Style where
  other ctrl i := if ctrl.progIf ≠ progIfAhci then listNonAhci ctrl i else listBadBar ctrl i
  head := listHead
  row := listRow literalAt

def controllerLog (pf : Platform) (ctrl : CtrlInfo) (r : Reading) : List (UInt64 × UInt32) :=
  if ctrl.Mapped then r.log pf ctrl.bar5 else []

def controllerText (style : Style) (ctrl : CtrlInfo) (i : ℕ) (r : Reading) : List UInt8 :=
  if ctrl.Mapped then style.head ctrl i r.cap r.pi ++ portsText r.pi 32 (style.row ctrl) r.port
  else style.other ctrl i

def Surveys (pf : Platform) (style : Style) (ctrl : CtrlInfo) (i : ℕ) (w w' : Walk) : Prop :=
  ∃ r, w'.log = w.log ++ controllerLog pf ctrl r ∧
    w'.output = w.output ++ controllerText style ctrl i r

theorem surveys_of_not_mapped (pf : Platform) (style : Style) (h : ¬ ctrl.Mapped) (i : ℕ)
    (w : Walk) : Surveys pf style ctrl i w (w.put (style.other ctrl i)) := by
  refine ⟨⟨0, 0, fun _ => (0, 0)⟩, ?_, ?_⟩
  · rw [controllerLog, if_neg h, List.append_nil, Walk.put]
  · rw [controllerText, if_neg h, Walk.put]

theorem surveys_of_mapped (pf : Platform) (dev : Answers) (style : Style) (h : ctrl.Mapped)
    (i : ℕ) (w : Walk) :
    Surveys pf style ctrl i w
      (surveyPorts pf dev ctrl.bar5 (style.head ctrl i) (style.row ctrl) w) := by
  generalize hcap : dev w.reads (abarVirt pf ctrl.bar5 + regCap) = cap
  generalize hpi : dev (w.reads + 1) (abarVirt pf ctrl.bar5 + regPi) = pi
  generalize hw : (Walk.mk (w.reads + 1 + 1) (w.log ++ [(abarVirt pf ctrl.bar5 + regCap, cap)] ++
    [(abarVirt pf ctrl.bar5 + regPi, pi)]) w.output) = w'
  have hwalk : surveyPorts pf dev ctrl.bar5 (style.head ctrl i) (style.row ctrl) w =
      walkPorts pf dev ctrl.bar5 pi (style.row ctrl) (w'.put (style.head ctrl i cap pi)) := by
    rw [← hw, ← hcap, ← hpi]
    rfl
  obtain ⟨port, hlog, houtput⟩ := walkPorts_spec ctrl.bar5 pi
    (style.row ctrl) (w'.put (style.head ctrl i cap pi))
  refine ⟨⟨cap, pi, port⟩, ?_, ?_⟩
  · rw [hwalk, hlog, controllerLog, if_pos h, Reading.log, ← hw]
    simp [Walk.put]
  · rw [hwalk, houtput, controllerText, if_pos h, ← hw]
    simp [Walk.put]

theorem head_listing : (listing literalAt).head = listHead := by simp only [listing]

theorem row_listing : (listing literalAt).row = listRow literalAt := by simp only [listing]

theorem other_listing (ctrl : CtrlInfo) (i : ℕ) : (listing literalAt).other ctrl i =
    if ctrl.progIf ≠ progIfAhci then listNonAhci ctrl i else listBadBar ctrl i := by
  simp only [listing]

theorem surveys_listController (ctrl : CtrlInfo) (i : ℕ) (w : Walk) :
    Surveys pf (listing literalAt) ctrl i w (listController pf dev literalAt ctrl i w) := by
  by_cases hmapped : ctrl.Mapped
  · obtain ⟨hahci, hne, hmem⟩ := hmapped
    have hbar : ¬ (ctrl.bar5 = 0 ∨ ctrl.bar5 &&& 1 ≠ 0) :=
      not_or.mpr ⟨hne, not_not.mpr hmem⟩
    rw [listController, if_neg (not_not.mpr hahci)]
    dsimp only
    rw [if_neg hbar]
    have hsurvey := surveys_of_mapped pf dev (listing literalAt)
      ⟨hahci, hne, hmem⟩ i w
    rwa [head_listing, row_listing] at hsurvey
  · have hother := surveys_of_not_mapped pf (listing literalAt) hmapped i w
    rw [listController]
    by_cases hahci : ctrl.progIf = progIfAhci
    · have hbar : ctrl.bar5 = 0 ∨ ctrl.bar5 &&& 1 ≠ 0 := by
        by_contra hbar
        rw [not_or, not_not] at hbar
        exact hmapped ⟨hahci, hbar⟩
      rw [other_listing, if_neg (not_not.mpr hahci)] at hother
      rw [if_neg (not_not.mpr hahci)]
      dsimp only
      rw [if_pos hbar]
      exact hother
    · rw [other_listing, if_pos hahci] at hother
      rw [if_pos hahci]
      exact hother

theorem head_probing : probing.head = probeHead := by simp only [probing]

theorem row_probing (ctrl : CtrlInfo) : probing.row ctrl = probeRow := by simp only [probing]

theorem other_probing (ctrl : CtrlInfo) (i : ℕ) : probing.other ctrl i =
    if ctrl.progIf ≠ progIfAhci then probeNotAhci ctrl i
    else if ctrl.bar5 = 0 then probeNoBar i
    else probeIoBar i := by
  simp only [probing]

theorem surveys_probeAhciController (ctrl : CtrlInfo) (i : ℕ) (w : Walk) :
    Surveys pf probing ctrl i w (probeAhciController pf dev ctrl i w) := by
  by_cases hmapped : ctrl.Mapped
  · obtain ⟨hahci, hne, hmem⟩ := hmapped
    rw [probeAhciController, if_neg (not_not.mpr hahci)]
    dsimp only
    rw [if_neg hne, if_neg (not_not.mpr hmem)]
    have hsurvey := surveys_of_mapped pf dev probing
      ⟨hahci, hne, hmem⟩ i w
    rwa [head_probing, row_probing] at hsurvey
  · have hother := surveys_of_not_mapped pf probing hmapped i w
    rw [probeAhciController]
    by_cases hahci : ctrl.progIf = progIfAhci
    · rw [other_probing, if_neg (not_not.mpr hahci)] at hother
      rw [if_neg (not_not.mpr hahci)]
      dsimp only
      by_cases hzero : ctrl.bar5 = 0
      · rw [if_pos hzero] at hother ⊢
        exact hother
      · have hio : ctrl.bar5 &&& 1 ≠ 0 := fun hmem => hmapped ⟨hahci, hzero, hmem⟩
        rw [if_neg hzero] at hother ⊢
        rw [if_pos hio]
        exact hother
    · rw [other_probing, if_pos hahci] at hother
      rw [if_pos hahci]
      exact hother

/-- A walk over a table reads and prints its controllers one after the other. -/
theorem surveys_forLoop {style : Style} {step : CtrlInfo → ℕ → Walk → Walk}
    (hstep : ∀ ctrl i w, Surveys pf style ctrl i w (step ctrl i w)) (ctrls : Mem CtrlInfo)
    (n : ℕ) (w : Walk) :
    ∃ r : ℕ → Reading,
      (forLoop n (fun i => step (ctrls i) i) w).log = w.log ++
        (List.range n).flatMap (fun i => controllerLog pf (ctrls i) (r i)) ∧
      (forLoop n (fun i => step (ctrls i) i) w).output = w.output ++
        (List.range n).flatMap fun i => controllerText style (ctrls i) i (r i) := by
  apply forLoop_invariant (P := fun n (w' : Walk) => ∃ r : ℕ → Reading,
    w'.log = w.log ++ (List.range n).flatMap (fun i => controllerLog pf (ctrls i) (r i)) ∧
    w'.output = w.output ++
      (List.range n).flatMap fun i => controllerText style (ctrls i) i (r i))
  · exact ⟨fun _ => ⟨0, 0, fun _ => (0, 0)⟩, (List.append_nil _).symm, (List.append_nil _).symm⟩
  · rintro n - w' ⟨r, hlog, houtput⟩
    obtain ⟨next, hlog', houtput'⟩ := hstep (ctrls n) n w'
    have hold : ∀ i ∈ List.range n, Function.update r n next i = r i :=
      fun i hi => Function.update_of_ne (List.mem_range.mp hi).ne _ _
    refine ⟨Function.update r n next, ?_, ?_⟩
    · rw [List.range_succ, List.flatMap_append, List.flatMap_congr fun i hi => by rw [hold i hi],
        ← List.append_assoc, ← hlog, List.flatMap_singleton, Function.update_self, hlog']
    · rw [List.range_succ, List.flatMap_append, List.flatMap_congr fun i hi => by rw [hold i hi],
        ← List.append_assoc, ← houtput, List.flatMap_singleton, Function.update_self, houtput']

/-- A scan leaves the first sixteen controllers in the table, whatever it held before. -/
theorem window_scanPci (cfg : Pci.ConfigSpace) (t : Table) :
    window (scanPci cfg t).ctrls (scanPci cfg t).count =
      ((controllers cfg).take maxControllers).map (ctrlInfoAt cfg) := by
  rw [scanPci_eq]
  exact forEach_scanFunction (fun p hp => mem_controllers.mp hp) (Nat.zero_le maxControllers)

end Wnu.Sata
