import Wnu.Block.DeviceFiles
import Wnu.Sata.Listing
import Wnu.Vfs.Start

/-! # The block devices at start

Each controller that the scan has found becomes a block device under its number in the
table. The registry has fewer slots than the table, so only the first eight controllers
are found by their names, each one by its own.
-/

namespace Wnu.Sata

open Block Lib Memory Text Vfs Runs

/-- `while (num > 0 && bl < (int)sizeof(buf) - 1) { buf[bl++] = '0' + (num % 10); num /= 10; }`,
with that much room in `buf`. -/
def digitsLoop : ℕ → ℕ → List UInt8 → List UInt8
  | 0, _, buf => buf
  | room + 1, num, buf =>
    if num > 0 then digitsLoop room (num / 10) (buf ++ [UInt8.ofNat (48 + num % 10)]) else buf

def digitsOf (num : ℕ) : List UInt8 :=
  let buf : List UInt8 := if num = 0 then [48] else []
  digitsLoop (15 - buf.length) num buf

/-- The loop that puts the digits into `dev->name`: `pos` after it, and the name. -/
def putDigits : List UInt8 → ℕ → Vector UInt8 32 → ℕ × Vector UInt8 32
  | [], pos, name => (pos, name)
  | c :: digits, pos, name =>
    if pos < 31 then putDigits digits (pos + 1) (name.setIfInBounds pos c) else (pos, name)

/-- `dev->name` of the controller with a number. -/
def deviceName (num : ℕ) : Vector UInt8 32 :=
  let name := Vector.replicate 32 0
  let name := name.setIfInBounds 0 's'.toUInt8
  let name := name.setIfInBounds 1 'a'.toUInt8
  let name := name.setIfInBounds 2 't'.toUInt8
  let name := name.setIfInBounds 3 'a'.toUInt8
  let (pos, name) := putDigits (digitsOf num).reverse 4 name
  name.setIfInBounds pos 0

def sataDevice (num : ℕ) : BlockDevice where
  name := deviceName num
  driverData := .ctrl num
  read := some .sataBlockRead

structure Setup where
  registry : Registry
  walk : Walk

variable (pf : Platform) (dev : Answers) (namesAt : ℕ → UInt64)

/-- The body of the loop of `wnu_sata_init`. The names are at these addresses. -/
def initController (ctrl : CtrlInfo) (i : ℕ) (s : Setup) : Setup :=
  let w := probeAhciController pf dev ctrl i (s.walk.put (printController ctrl i))
  let (ok, registry) := blockRegister s.registry (sataDevice i)
  let name : Arg := .str (namesAt i) (text (deviceName i).toList)
  ⟨registry, w.put (if ok then printed "sata: registered block device %s\n" [name]
    else printed "sata: failed to register block device %s\n" [name])⟩

/-- `wnu_sata_init` -/
def sataInit (cfg : Pci.ConfigSpace) (t : Table) (s : Setup) : Table × Setup :=
  let s := { s with walk := s.walk.put (printed "sata: init\n" []) }
  let t := scanPci cfg { t with printed := [] }
  let s := { s with walk := s.walk.put (scanText t) }
  if t.count = 0 then
    (t, { s with walk := s.walk.put (printed "sata: no SATA controllers found\n" []) })
  else (t, forLoop t.count (fun i => initController pf dev namesAt (t.ctrls i) i) s)

/-! ## Names -/

def sataName (num : ℕ) : List UInt8 := ascii "sata" ++ numeral digitChar 10 num

theorem digitsLoop_eq {room num : ℕ} (h : (Nat.digits 10 num).length ≤ room) (buf : List UInt8) :
    digitsLoop room num buf = buf ++ (Nat.digits 10 num).map digitChar := by
  induction room generalizing num buf with
  | zero =>
    rw [Nat.le_zero, List.length_eq_zero_iff] at h
    rw [digitsLoop, h, List.map_nil, List.append_nil]
  | succ room ih =>
    rw [digitsLoop]
    split
    · rename_i hpos
      have hdigits := Nat.digits_def' (b := 10) (by decide) hpos
      have hlt := Nat.mod_lt num (show 0 < 10 by decide)
      have hchar : UInt8.ofNat (48 + num % 10) = digitChar (num % 10) := (if_pos hlt).symm
      rw [hdigits, List.length_cons] at h
      rw [ih (by omega), hdigits, List.map_cons, hchar, List.append_assoc, List.singleton_append]
    · rename_i hzero
      have hnum : num = 0 := by omega
      rw [hnum, Nat.digits_zero, List.map_nil, List.append_nil]

theorem length_digits_le {num k : ℕ} (h : num < 10 ^ k) : (Nat.digits 10 num).length ≤ k := by
  rcases Nat.eq_zero_or_pos num with rfl | hpos
  · rw [Nat.digits_zero]
    exact Nat.zero_le k
  · have hle := Nat.base_pow_length_digits_le 10 num (by decide) (Nat.ne_of_gt hpos)
    have hlt : 10 ^ (Nat.digits 10 num).length < 10 ^ (k + 1) := by
      rw [Nat.pow_succ]
      omega
    exact Nat.le_of_lt_succ ((Nat.pow_lt_pow_iff_right (by decide)).mp hlt)

theorem reverse_digitsOf {num : ℕ} (h : num < 10 ^ 14) :
    (digitsOf num).reverse = numeral digitChar 10 num := by
  have hlen := length_digits_le h
  rw [digitsOf, numeral]
  by_cases hzero : num = 0
  · rw [if_pos hzero, if_pos hzero, digitsLoop_eq (by simpa using hlen), hzero]
    rfl
  · rw [if_neg hzero, if_neg hzero, digitsLoop_eq (by simp; omega), List.nil_append]

def Spells (name : Vector UInt8 32) (s : List UInt8) : Prop :=
  name.toList = s ++ List.replicate (32 - s.length) 0

theorem spells_replicate : Spells (Vector.replicate 32 0) [] := by
  rw [Spells, Vector.toList_replicate, List.nil_append, List.length_nil]

theorem Spells.put {name : Vector UInt8 32} {s : List UInt8} (h : Spells name s)
    (hs : s.length < 32) (c : UInt8) : Spells (name.setIfInBounds s.length c) (s ++ [c]) := by
  obtain ⟨k, hk⟩ : ∃ k, 32 - s.length = k + 1 := ⟨31 - s.length, by omega⟩
  have hk' : 32 - (s ++ [c]).length = k := by
    rw [List.length_append, List.length_singleton]
    omega
  rw [Spells, Vector.toList_setIfInBounds, h, hk, hk', List.set_append_right _ _ (Nat.le_refl _),
    Nat.sub_self, List.replicate_succ, List.set_cons_zero, List.append_assoc,
    List.singleton_append]

theorem Spells.putDigits {name : Vector UInt8 32} {s : List UInt8} (h : Spells name s)
    {digits : List UInt8} (hroom : s.length + digits.length ≤ 31) :
    (putDigits digits s.length name).1 = (s ++ digits).length ∧
      Spells (Sata.putDigits digits s.length name).2 (s ++ digits) := by
  induction digits generalizing s name with
  | nil =>
    rw [List.append_nil]
    exact ⟨rfl, h⟩
  | cons c digits ih =>
    rw [List.length_cons] at hroom
    have hlen : (s ++ [c]).length = s.length + 1 := by simp
    have hrest := ih (h.put (by omega) c) (by rw [hlen]; omega)
    rw [hlen, List.append_assoc, List.singleton_append] at hrest
    rw [Sata.putDigits, if_pos (by omega)]
    exact hrest

theorem Spells.endAt {name : Vector UInt8 32} {s : List UInt8} (h : Spells name s)
    (hs : s.length < 32) : Spells (name.setIfInBounds s.length 0) s := by
  have hput := h.put hs 0
  obtain ⟨k, hk⟩ : ∃ k, 32 - s.length = k + 1 := ⟨31 - s.length, by omega⟩
  have hk' : 32 - (s ++ [0]).length = k := by
    rw [List.length_append, List.length_singleton]
    omega
  rw [Spells, hk', List.append_assoc, List.singleton_append, ← List.replicate_succ, ← hk] at hput
  exact hput

theorem Spells.text_eq {name : Vector UInt8 32} {s : List UInt8} (h : Spells name s)
    (hs : ∀ c ∈ s, c ≠ 0) : text name.toList = s := by
  rw [h]
  cases 32 - s.length with
  | zero => rw [List.replicate_zero, List.append_nil, text_eq_self hs]
  | succ k => rw [List.replicate_succ, text_append_zero hs]

theorem length_numeral_le {num k : ℕ} (h : num < 10 ^ k) (hk : 0 < k) :
    (numeral digitChar 10 num).length ≤ k := by
  rw [numeral]
  split
  · exact hk
  · rw [List.length_reverse, List.length_map]
    exact length_digits_le h

theorem spells_deviceName {num : ℕ} (h : num < 10 ^ 14) :
    Spells (deviceName num) (sataName num) := by
  have hlen := length_numeral_le h (by decide)
  have hstart : Spells _ (ascii "sata") :=
    (((spells_replicate.put (by decide) 's'.toUInt8).put (by decide) 'a'.toUInt8).put (by decide)
      't'.toUInt8).put (by decide) 'a'.toUInt8
  have hfour : (ascii "sata").length = 4 := rfl
  have hfits : (ascii "sata").length + (numeral digitChar 10 num).length ≤ 31 := by omega
  obtain ⟨hpos, hname⟩ := hstart.putDigits hfits
  have hroom : (sataName num).length < 32 := by
    rw [sataName, List.length_append]
    omega
  have hend := hname.endAt hroom
  rw [← hpos] at hend
  rw [deviceName, reverse_digitsOf h]
  exact hend

theorem text_deviceName {num : ℕ} (h : num < 10 ^ 14) :
    text (deviceName num).toList = sataName num := by
  apply (spells_deviceName h).text_eq
  intro c hc
  rw [sataName, List.mem_append] at hc
  rcases hc with hc | hc
  · revert c
    decide +kernel
  · obtain ⟨d, hd, rfl⟩ := exists_of_mem_numeral (by decide) hc
    clear hc
    revert d
    decide

theorem sataName_inj {i j : ℕ} (h : sataName i = sataName j) : i = j :=
  numeral_injective (by decide) (by decide) (List.append_cancel_left h)

/-! ## The controllers at start -/

variable {pf dev namesAt} {s : Setup}

theorem initController_registry (ctrl : CtrlInfo) (i : ℕ) (s : Setup) :
    (initController pf dev namesAt ctrl i s).registry =
      (blockRegister s.registry (sataDevice i)).2 := rfl

theorem initController_log (pf : Platform) (dev : Answers) (namesAt : ℕ → UInt64)
    (ctrl : CtrlInfo) (i : ℕ) (s : Setup) :
    ∃ r, (initController pf dev namesAt ctrl i s).walk.log =
      s.walk.log ++ controllerLog pf ctrl r := by
  obtain ⟨r, hlog, -⟩ :=
    @surveys_probeAhciController pf dev ctrl i (s.walk.put (printController ctrl i))
  exact ⟨r, hlog⟩

/-- The devices are registered in the order of the table, and of the controllers only the registers
that tell about their ports are read. -/
theorem forLoop_initController (ctrls : Mem CtrlInfo) (n : ℕ) (s : Setup) :
    let s' := forLoop n (fun i => initController pf dev namesAt (ctrls i) i) s
    s'.registry = run blockRegister s.registry ((List.range n).map sataDevice) ∧
      ∃ r : ℕ → Reading, s'.walk.log =
        s.walk.log ++ (List.range n).flatMap fun i => controllerLog pf (ctrls i) (r i) := by
  apply forLoop_invariant (P := fun n (s' : Setup) =>
    s'.registry = run blockRegister s.registry ((List.range n).map sataDevice) ∧
      ∃ r : ℕ → Reading, s'.walk.log =
        s.walk.log ++ (List.range n).flatMap fun i => controllerLog pf (ctrls i) (r i))
  · exact ⟨rfl, fun _ => ⟨0, 0, fun _ => (0, 0)⟩, (List.append_nil _).symm⟩
  · rintro n - s' ⟨hregistry, r, hlog⟩
    obtain ⟨next, hnext⟩ := initController_log pf dev namesAt (ctrls n) n s'
    constructor
    · rw [initController_registry, hregistry, List.range_succ, List.map_append, run_append]
      rfl
    · have hold : ∀ i ∈ List.range n, Function.update r n next i = r i :=
        fun i hi => Function.update_of_ne (List.mem_range.mp hi).ne _ _
      have hreads : ((List.range n).flatMap fun i =>
            controllerLog pf (ctrls i) (Function.update r n next i)) =
          (List.range n).flatMap fun i => controllerLog pf (ctrls i) (r i) :=
        List.flatMap_congr fun i hi => by rw [hold i hi]
      refine ⟨Function.update r n next, ?_⟩
      rw [hnext, hlog, List.range_succ, List.flatMap_append, hreads, List.flatMap_singleton,
        Function.update_self, List.append_assoc]

/-- What `wnu_sata_init` leaves behind. -/
theorem sataInit_eq (pf : Platform) (dev : Answers) (namesAt : ℕ → UInt64)
    (cfg : Pci.ConfigSpace) (t : Table) (s : Setup) :
    let (t', s') := sataInit pf dev namesAt cfg t s
    t' = scanPci cfg { t with printed := [] } ∧
      s'.registry = run blockRegister s.registry ((List.range t'.count).map sataDevice) ∧
      ∃ r : ℕ → Reading, s'.walk.log = s.walk.log ++
        (List.range t'.count).flatMap fun i => controllerLog pf (t'.ctrls i) (r i) := by
  unfold sataInit
  dsimp only
  generalize scanPci cfg { t with printed := [] } = t'
  by_cases hzero : t'.count = 0
  · rw [if_pos hzero]
    dsimp only
    rw [hzero]
    exact ⟨rfl, rfl, fun _ => ⟨0, 0, fun _ => (0, 0)⟩, (List.append_nil _).symm⟩
  · rw [if_neg hzero]
    exact ⟨rfl, forLoop_initController t'.ctrls t'.count
      { s with walk := (s.walk.put (printed "sata: init\n" [])).put (scanText t') }⟩

theorem text_sataDevice {i : ℕ} (h : i < 10 ^ 14) : (sataDevice i).text = sataName i :=
  text_deviceName h

theorem slash_notMem_sataName (i : ℕ) : slash ∉ sataName i := by
  intro hmem
  rw [sataName, List.mem_append] at hmem
  rcases hmem with hmem | hmem
  · revert hmem
    decide
  · obtain ⟨d, hd, he⟩ := exists_of_mem_numeral (by decide) hmem
    clear hmem
    revert d
    decide

theorem deviceFile_notMem_initPaths (name : List UInt8) : deviceFile name ∉ initPaths := by
  intro hmem
  have htake : (deviceFile name).take 5 = ascii "/dev/" := rfl
  have hall : ∀ p ∈ initPaths, p.take 5 ≠ ascii "/dev/" := by decide
  exact hall _ hmem htake

theorem devDir_notMem_initPaths : devDir ∉ initPaths := by decide

def bootDevices (count : ℕ) : List BlockDevice :=
  (List.range (min maxBlockDev count)).map sataDevice

theorem take_sataDevices (count : ℕ) :
    ((List.range count).map sataDevice).take maxBlockDev = bootDevices count := by
  rw [bootDevices, ← List.map_take, List.take_range]

theorem mem_bootDevices {count : ℕ} {d : BlockDevice} :
    d ∈ bootDevices count ↔ ∃ i < min maxBlockDev count, sataDevice i = d := by
  simp only [bootDevices, List.mem_map, List.mem_range]

theorem text_of_mem_bootDevices {count i : ℕ} (h : i < min maxBlockDev count) :
    (sataDevice i).text = sataName i := by
  apply text_sataDevice
  have hle : i < 8 := Nat.lt_of_lt_of_le h (Nat.min_le_left _ _)
  omega

theorem find?_bootDevices (count : ℕ) (name : List UInt8) (d : BlockDevice) :
    (bootDevices count).find? (fun dev => dev.text = name) = some d ↔
      ∃ i < min maxBlockDev count, d = sataDevice i ∧ name = sataName i := by
  constructor
  · intro hfind
    obtain ⟨i, hi, rfl⟩ := mem_bootDevices.mp (List.mem_of_find?_eq_some hfind)
    have htext : (sataDevice i).text = name := by simpa using List.find?_some hfind
    rw [text_of_mem_bootDevices hi] at htext
    exact ⟨i, hi, rfl, htext.symm⟩
  · rintro ⟨i, hi, rfl, rfl⟩
    have hsome : ((bootDevices count).find? fun dev => dev.text = sataName i).isSome := by
      rw [List.find?_isSome]
      exact ⟨sataDevice i, mem_bootDevices.mpr ⟨i, hi, rfl⟩,
        decide_eq_true (text_of_mem_bootDevices hi)⟩
    obtain ⟨d, hd⟩ := Option.isSome_iff_exists.mp hsome
    obtain ⟨j, hj, rfl⟩ := mem_bootDevices.mp (List.mem_of_find?_eq_some hd)
    have htext : (sataDevice j).text = sataName i := by simpa using List.find?_some hd
    rw [text_of_mem_bootDevices hj] at htext
    rw [hd, sataName_inj htext]

theorem nodup_sataNames {count : ℕ} (h : count ≤ 10 ^ 14) :
    (((List.range count).map sataDevice).map BlockDevice.text).Nodup := by
  have htexts : ((List.range count).map sataDevice).map BlockDevice.text =
      (List.range count).map sataName := by
    rw [List.map_map]
    apply List.map_congr_left
    intro i hi
    exact text_sataDevice (Nat.lt_of_lt_of_le (List.mem_range.mp hi) h)
  rw [htexts]
  exact List.nodup_range.map fun i j => sataName_inj

theorem findController_window {cfg : Pci.ConfigSpace} {t : Table} {n i : ℕ} {p : Pci.Place}
    (h : window t.ctrls t.count = ((controllers cfg).take n).map (ctrlInfoAt cfg)) (hi : i < n)
    (hp : (controllers cfg)[i]? = some p) (buf count : UInt64) :
    findController t.toControllers (.ctrl i) buf count =
      if buf = 0 ∨ count = 0 then none
      else if Pci.register cfg p 0x24 = 0 ∨ Pci.register cfg p 0x24 &&& 1 ≠ 0 then none
      else some (i, Pci.register cfg p 0x24) := by
  have hentry : (window t.ctrls t.count)[i]? = some (ctrlInfoAt cfg p) := by
    rw [h, List.getElem?_map, List.getElem?_take_of_lt hi, hp, Option.map_some]
  have hlt : i < t.count := by
    have hlt := (List.getElem?_eq_some_iff.mp hentry).1
    rwa [length_window] at hlt
  have hctrl : t.ctrls i = ctrlInfoAt cfg p := by
    rw [window, List.getElem?_map, List.getElem?_range hlt, Option.map_some] at hentry
    exact Option.some.inj hentry
  have hfind : (List.range t.count).find? (fun k => Pointer.ctrl k = .ctrl i) = some i := by
    rw [List.find?_range_eq_some]
    refine ⟨decide_eq_true rfl, List.mem_range.mpr hlt, fun k hk => ?_⟩
    simp only [Pointer.ctrl.injEq, Nat.ne_of_lt hk, decide_false, Bool.not_false]
  have hbar : (t.toControllers.ctrls i).bar[5] = Pci.register cfg p 0x24 := by
    have hbars : (t.toControllers.ctrls i).bar = (ctrlInfoAt cfg p).bar := by rw [← hctrl]
    simp only [hbars, ctrlInfoAt, Vector.getElem_ofFn]
    rfl
  have hnull : Pointer.ctrl i ≠ .null := by rintro ⟨⟩
  have hcount : t.toControllers.count = t.count := rfl
  rw [findController, hcount, hfind]
  simp only [hnull, hbar, false_or]

theorem announces_sataDevices {vfs : Vfs.Table} {count : ℕ} (h : Announces vfs vfs [])
    (hroom : (Slots.usedSlots view vfs.nodes).card + maxBlockDev < maxNodes)
    (habsent : ∀ name, vfs.node (deviceFile name) = none) (hcount : count ≤ maxControllers) :
    Announces vfs (run blockRegister ⟨noDevices, vfs⟩ ((List.range count).map sataDevice)).vfs
      ((List.range (min maxBlockDev count)).map sataName) := by
  have hsmall : count ≤ 10 ^ 14 := hcount.trans (by decide)
  have htext : ∀ d ∈ (List.range count).map sataDevice, ∃ i, d.text = sataName i := by
    intro d hd
    obtain ⟨i, hi, rfl⟩ := List.mem_map.mp hd
    exact ⟨i, text_sataDevice (Nat.lt_of_lt_of_le (List.mem_range.mp hi) hsmall)⟩
  have hfree : ∀ d ∈ (List.range count).map sataDevice, slash ∉ d.text := by
    intro d hd
    obtain ⟨i, hi⟩ := htext d hd
    rw [hi]
    exact slash_notMem_sataName i
  have hnames : (bootDevices count).map BlockDevice.text =
      (List.range (min maxBlockDev count)).map sataName := by
    rw [bootDevices, List.map_map]
    exact List.map_congr_left fun i hi => text_of_mem_bootDevices (List.mem_range.mp hi)
  have hheld : Holds (Registry.mk noDevices vfs).devices [] := holds_noDevices
  have hrun := Announces.run hheld h hroom hfree (nodup_sataNames hsmall) fun d _ => habsent d.text
  rw [List.nil_append, take_sataDevices, hnames] at hrun
  exact hrun

theorem announces_init (t₀ : Vfs.Table) : Announces (init t₀) (init t₀) [] := by
  refine announces_nil (reachable_init t₀).inv fun node hnode => ?_
  rw [node_init devDir_notMem_initPaths] at hnode
  cases hnode

/-- After the start, the table has the first sixteen controllers. The first eight of these are
found by their names, with or without `/dev/` before it, and by no other name, and each has a file
in `/dev`. Nothing else of the first file system changes. A read of one of them by its name is a
command to that controller, through the register of its function. On the way only the registers
that tell about the ports have been read, and none has been written. -/
theorem boot_devices (pf : Platform) (dev : Answers) (namesAt : ℕ → UInt64) (cfg : Pci.ConfigSpace)
    (t : Table) (t₀ : Vfs.Table) (w : Walk) :
    let (t', s) := sataInit pf dev namesAt cfg t ⟨⟨noDevices, init t₀⟩, w⟩
    let n := min maxBlockDev (controllers cfg).length
    window t'.ctrls t'.count = ((controllers cfg).take maxControllers).map (ctrlInfoAt cfg) ∧
      (∀ name d, blockFind s.registry.devices name = some d ↔
        ∃ i < n, d = sataDevice i ∧ (text (lookupName name)).take 32 = sataName i) ∧
      Announces (init t₀) s.registry.vfs ((List.range n).map sataName) ∧
      (∀ answers name lba buf count c i p, i < n → (controllers cfg)[i]? = some p →
        (text (lookupName name)).take 32 = sataName i →
          blockRead pf answers t'.toControllers s.registry.devices name lba buf count c =
            sataBlockRead pf answers t'.toControllers (.ctrl i) lba buf count c ∧
          findController t'.toControllers (.ctrl i) buf count =
            if buf = 0 ∨ count = 0 then none
            else if Pci.register cfg p 0x24 = 0 ∨ Pci.register cfg p 0x24 &&& 1 ≠ 0 then none
            else some (i, Pci.register cfg p 0x24)) ∧
      ∃ r : ℕ → Reading, s.walk.log =
        w.log ++ (List.range t'.count).flatMap fun i => controllerLog pf (t'.ctrls i) (r i) := by
  have hsetup := sataInit_eq pf dev namesAt cfg t
    ⟨⟨noDevices, init t₀⟩, w⟩
  generalize sataInit pf dev namesAt cfg t ⟨⟨noDevices, init t₀⟩, w⟩ = result at hsetup ⊢
  obtain ⟨t', s⟩ := result
  obtain ⟨hscan, hregistry, hlog⟩ := hsetup
  dsimp only at hregistry hlog ⊢
  have hwindow : window t'.ctrls t'.count =
      ((controllers cfg).take maxControllers).map (ctrlInfoAt cfg) := by
    rw [hscan]
    exact window_scanPci cfg _
  have hcount : t'.count = min maxControllers (controllers cfg).length := by
    have hlength := congrArg List.length hwindow
    rwa [length_window, List.length_map, List.length_take] at hlength
  have hmin : min maxBlockDev t'.count = min maxBlockDev (controllers cfg).length := by
    rw [hcount, maxBlockDev, maxControllers]
    omega
  have hheld : Holds (Registry.mk noDevices (init t₀)).devices [] := holds_noDevices
  have hfind (name : List UInt8) (d : BlockDevice) :
      blockFind s.registry.devices name = some d ↔
        ∃ i < min maxBlockDev (controllers cfg).length, d = sataDevice i ∧
          (text (lookupName name)).take 32 = sataName i := by
    have hrun := hheld.run ((List.range t'.count).map sataDevice)
    rw [List.nil_append, take_sataDevices, ← hregistry] at hrun
    rw [hrun.blockFind, ← hmin]
    exact find?_bootDevices _ _ _
  refine ⟨hwindow, hfind, ?_, ?_, hlog⟩
  · have hroom : (Slots.usedSlots view (init t₀).nodes).card + maxBlockDev < maxNodes :=
      Nat.lt_of_le_of_lt (Nat.add_le_add_right (card_init_le t₀) _) (by decide)
    have hsmall : t'.count ≤ maxControllers := hcount ▸ Nat.min_le_left _ _
    rw [hregistry, ← hmin]
    exact announces_sataDevices (announces_init t₀) hroom
      (fun _ => node_init (deviceFile_notMem_initPaths _)) hsmall
  · intro answers name lba buf count c i p hi hp hname
    refine ⟨?_, findController_window hwindow ?_ hp buf count⟩
    · rw [blockRead, (hfind name (sataDevice i)).mpr ⟨i, hi, rfl, hname⟩]
      rfl
    · have hlt := Nat.lt_of_lt_of_le hi (Nat.min_le_left _ _)
      rw [maxControllers]
      rw [maxBlockDev] at hlt
      omega

end Wnu.Sata
