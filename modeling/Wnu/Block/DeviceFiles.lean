import Mathlib.Data.List.Nodup
import Wnu.Block.Registry
import Wnu.Vfs.Invariant

/-! # The files of block devices

A registration creates the directory `/dev` if it is missing, and in it a file for the
device. If the file system has room and the names are free, every device that is
registered has its file, and nothing else of the file system changes.
-/

namespace Wnu.Block

open Lib Memory Text Vfs Runs

def devDir : List UInt8 := ascii "/dev"

def deviceFile (name : List UInt8) : List UInt8 := devDir ++ slash :: name

def fileText : List UInt8 := ascii "block device"

def BlockDevice.text (dev : BlockDevice) : List UInt8 := Text.text dev.name.toList

variable {t t' : Table} {dev : BlockDevice} {names : List (List UInt8)} {r : Registry}

/-! ## The path of a device -/

theorem appendName_eq {path name : List UInt8} (h : path.length + name.length < maxName) :
    appendName path name = path ++ Text.text name := by
  induction name generalizing path with
  | nil => rw [appendName, text_nil, List.append_nil]
  | cons c name ih =>
    rw [List.length_cons] at h
    rw [appendName, if_pos (by omega)]
    by_cases hc : c = 0
    · rw [if_pos hc, hc, text_cons_zero, List.append_nil]
    · rw [if_neg hc, text_cons_of_ne hc, ih, List.append_assoc, List.singleton_append]
      rw [List.length_append, List.length_singleton]
      omega

theorem text_devicePath (dev : BlockDevice) :
    Text.text (devicePath dev) = deviceFile dev.text := by
  have hlen : (ascii "/dev/").length + dev.name.toList.length < maxName := by
    rw [Vector.length_toList]
    decide
  have hpath : ascii "/dev/" ++ Text.text dev.name.toList = deviceFile dev.text := rfl
  rw [devicePath, appendName_eq hlen, hpath]
  apply text_append_zero
  intro c hc
  rw [deviceFile, List.mem_append, List.mem_cons] at hc
  rcases hc with hc | rfl | hc
  · revert c
    decide +kernel
  · exact slash_ne_zero
  · exact ne_zero_of_mem_text hc

theorem length_deviceFile (dev : BlockDevice) : (deviceFile dev.text).length < maxName := by
  have hname : dev.text.length ≤ 32 := (prefix_text _).length_le.trans (by simp)
  have hdir : devDir.length = 4 := rfl
  rw [deviceFile, List.length_append, List.length_cons, maxName]
  omega

/-! ## One registration -/

theorem creatable_devDir (h : Inv t) (habsent : t.node devDir = none)
    (hroom : (Slots.usedSlots view t.nodes).card < maxNodes) : Creatable t devDir where
  absolute := ⟨ascii "dev", rfl⟩
  length_lt := by decide
  ne_root := by decide
  absent := habsent
  parent := h.root
  room := hroom

structure DevDirIn (t₁ t : Table) : Prop where
  inv : Inv t₁
  dir : ∃ node, t₁.node devDir = some node ∧ node.type = .dir
  node : ∀ p, p ≠ devDir → t₁.node p = t.node p
  kept : ∀ node, t.node devDir = some node → t₁.node devDir = some node
  card : (Slots.usedSlots view t₁.nodes).card ≤
    (Slots.usedSlots view t.nodes).card + if t.node devDir = none then 1 else 0

theorem ensure_devDir (h : Inv t) (hdir : ∀ node, t.node devDir = some node → node.type = .dir)
    (hroom : t.node devDir = none → (Slots.usedSlots view t.nodes).card < maxNodes) :
    DevDirIn (if !exists' t (ascii "/dev") then (createDir t (ascii "/dev")).2 else t) t := by
  have htext : Text.text (ascii "/dev") = devDir := rfl
  have hexists : exists' t (ascii "/dev") = (t.node devDir).isSome := by
    rw [exists', ← htext, ← map_findNode, Option.isSome_map]
  rw [hexists]
  cases hnode : t.node devDir with
  | some node =>
    rw [Option.isSome_some, Bool.not_true, if_neg Bool.false_ne_true]
    exact ⟨h, ⟨node, hnode, hdir node hnode⟩, fun _ _ => rfl, fun _ hn => hn, by simp [hnode]⟩
  | none =>
    have hc : Creatable t (Text.text (ascii "/dev")) := creatable_devDir h hnode (hroom hnode)
    rcases createNode_cases .dir t (ascii "/dev") with ⟨hno, -⟩ | ⟨-, i, hi, he⟩
    · exact absurd hc hno
    have hstored (p : List UInt8) : (t.store i .dir (ascii "/dev")).node p = _ :=
      node_store h.distinct hi hc p
    rw [Option.isSome_none, Bool.not_false, if_pos rfl, createDir, he]
    refine ⟨h.store hi hc, ⟨_, by rw [hstored, htext, if_pos rfl], rfl⟩, fun p hp => ?_, ?_, ?_⟩
    · rw [hstored, htext, if_neg hp]
    · intro node hn
      rw [hnode] at hn
      cases hn
    · rw [if_pos hnode]
      exact (Slots.card_usedSlots_store (Slots.used_eq_false_of_free hi) rfl).le

theorem deviceFile_ne_devDir (name : List UInt8) : deviceFile name ≠ devDir := by
  intro h
  have hlen := congrArg List.length h
  rw [deviceFile, List.length_append, List.length_cons] at hlen
  omega

theorem deviceFile_inj {name name' : List UInt8} (h : deviceFile name = deviceFile name') :
    name = name' := (List.cons.inj (List.append_cancel_left h)).2

theorem DevDirIn.createFile {t₁ : Table} (h : DevDirIn t₁ t) (hfree : slash ∉ dev.text)
    (habsent : t.node (deviceFile dev.text) = none)
    (hroom : (Slots.usedSlots view t₁.nodes).card < maxNodes) :
    let (created, t₂) := createFile t₁ (devicePath dev)
    Added t₁ (if created then
        (writeFile t₂ (devicePath dev) (some (literal "block device")) 12).2
      else t₂) (deviceFile dev.text) fileText := by
  obtain ⟨node, hnode, hdir⟩ := h.dir
  have htext := text_devicePath dev
  have hlength : devDir.length + dev.text.length + 1 < maxName := by
    have hlen := length_deviceFile dev
    rw [deviceFile, List.length_append, List.length_cons] at hlen
    omega
  have hc : Creatable t₁ (Text.text (devicePath dev)) := by
    rw [htext]
    apply h.inv.creatable_append hnode hdir hfree hlength _ hroom
    rw [← habsent]
    exact h.node _ (deviceFile_ne_devDir dev.text)
  obtain ⟨hok, hadded⟩ := added_createFile h.inv hc
  have hwritten := (hadded.writeFile (literal "block device") 12).2
  have hcontents : (window (literal "block device") (12 : UInt64).toNat).take 4096 = fileText := by
    decide +kernel
  rw [htext, hcontents] at hwritten
  rw [← Prod.eta (Vfs.createFile t₁ (devicePath dev))]
  dsimp only
  rw [hok, if_pos rfl]
  exact hwritten

/-- The second table has a file for each of the names in `/dev`, and is otherwise the first one. -/
structure Announces (t t' : Table) (names : List (List UInt8)) : Prop where
  inv : Inv t'
  dir : ∀ node, t'.node devDir = some node → node.type = .dir
  made : names ≠ [] → t'.node devDir ≠ none
  file : ∀ name ∈ names, ∃ node, t'.node (deviceFile name) = some node ∧ node.type = .file ∧
    node.contents = fileText
  node : ∀ p, p ≠ devDir → (∀ name ∈ names, p ≠ deviceFile name) → t'.node p = t.node p
  kept : ∀ node, t.node devDir = some node → t'.node devDir = some node
  card : (Slots.usedSlots view t'.nodes).card + (if t'.node devDir = none then 1 else 0) ≤
    (Slots.usedSlots view t.nodes).card + names.length + 1

theorem announces_nil (h : Inv t)
    (hdir : ∀ node, t.node devDir = some node → node.type = .dir) : Announces t t [] where
  inv := h
  dir := hdir
  made hne := absurd rfl hne
  file _ hname := absurd hname List.not_mem_nil
  node _ _ _ := rfl
  kept _ hnode := hnode
  card := by
    rw [List.length_nil]
    split <;> omega

theorem Announces.createDeviceFile (dev : BlockDevice) (h : Announces t t' names)
    (hroom : (Slots.usedSlots view t.nodes).card + names.length + 1 < maxNodes)
    (hfree : slash ∉ dev.text) (hnew : dev.text ∉ names)
    (habsent : t.node (deviceFile dev.text) = none) :
    Announces t (createDeviceFile dev t') (names ++ [dev.text]) := by
  have hcard := h.card
  have hensured := ensure_devDir h.inv h.dir fun hnone => by
    rw [if_pos hnone] at hcard
    omega
  have habsent' : t'.node (deviceFile dev.text) = none := by
    rw [← habsent]
    apply h.node _ (deviceFile_ne_devDir _)
    rintro name hname he
    exact hnew (deviceFile_inj he ▸ hname)
  rw [Block.createDeviceFile]
  dsimp only
  generalize (if !exists' t' (ascii "/dev") then (createDir t' (ascii "/dev")).2 else t') = t₁
    at hensured ⊢
  have hcard₁ := hensured.card
  have hadded := hensured.createFile hfree habsent' (by omega)
  rw [← Prod.eta (createFile t₁ (devicePath dev))] at hadded
  dsimp only at hadded
  generalize (if (createFile t₁ (devicePath dev)).1 then _ else _) = t₂ at hadded ⊢
  obtain ⟨node, hnode, hdir⟩ := hensured.dir
  have hdir₂ : t₂.node devDir = some node := by
    rw [hadded.node _ (deviceFile_ne_devDir _).symm, hnode]
  constructor
  · exact hadded.inv
  · intro node' hnode'
    obtain rfl := Option.some.inj (hnode'.symm.trans hdir₂)
    exact hdir
  · intro _ hnone
    rw [hdir₂] at hnone
    cases hnone
  · intro name hname
    rw [List.mem_append, List.mem_singleton] at hname
    rcases hname with hname | rfl
    · have hne : deviceFile name ≠ deviceFile dev.text := fun he =>
        hnew (deviceFile_inj he ▸ hname)
      rw [hadded.node _ hne, hensured.node _ (deviceFile_ne_devDir _)]
      exact h.file name hname
    · exact hadded.file
  · intro p hp hnames
    have hold : ∀ name ∈ names, p ≠ deviceFile name := fun name hname =>
      hnames name (List.mem_append_left _ hname)
    have hnewest : p ≠ deviceFile dev.text :=
      hnames _ (List.mem_append_right _ (List.mem_singleton.mpr rfl))
    rw [hadded.node _ hnewest, hensured.node _ hp, h.node p hp hold]
  · intro node' hnode'
    rw [hadded.node _ (deviceFile_ne_devDir _).symm]
    exact hensured.kept _ (h.kept _ hnode')
  · rw [hdir₂, if_neg (Option.some_ne_none _), hadded.card, List.length_append,
      List.length_singleton]
    omega

/-! ## Registrations in a row -/

theorem Announces.run {held : List BlockDevice} (hheld : Holds r.devices held)
    (h : Announces t r.vfs (held.map BlockDevice.text)) {devs : List BlockDevice}
    (hroom : (Slots.usedSlots view t.nodes).card + maxBlockDev < maxNodes)
    (hfree : ∀ dev ∈ devs, slash ∉ dev.text)
    (hnodup : ((held ++ devs).map BlockDevice.text).Nodup)
    (habsent : ∀ dev ∈ devs, t.node (deviceFile dev.text) = none) :
    Announces t (run blockRegister r devs).vfs
      (((held ++ devs).take maxBlockDev).map BlockDevice.text) := by
  induction devs generalizing r held with
  | nil =>
    rw [List.append_nil, List.take_of_length_le hheld.length_le]
    exact h
  | cons dev devs ih =>
    obtain ⟨-, hnext, hvfs⟩ := hheld.blockRegister dev
    have hle := hheld.length_le
    have hrest := fun d hd => hfree d (List.mem_cons_of_mem dev hd)
    have hrest' := fun d hd => habsent d (List.mem_cons_of_mem dev hd)
    rw [run_cons]
    by_cases hlt : held.length < maxBlockDev
    · have htake : (held ++ [dev]).take maxBlockDev = held ++ [dev] :=
        List.take_of_length_le (by rw [List.length_append, List.length_singleton]; omega)
      have hnew : dev.text ∉ held.map BlockDevice.text := by
        rw [List.map_append, List.map_cons] at hnodup
        exact fun hmem => (List.nodup_append.mp hnodup).2.2 _ hmem _ List.mem_cons_self rfl
      have hone := h.createDeviceFile dev (by rw [List.length_map]; omega)
        (hfree dev List.mem_cons_self) hnew (habsent dev List.mem_cons_self)
      rw [if_pos hlt] at hvfs
      rw [← hvfs, ← List.map_singleton, ← List.map_append] at hone
      rw [htake] at hnext
      rw [← List.singleton_append, ← List.append_assoc] at hnodup ⊢
      exact ih hnext hone hrest hnodup hrest'
    · have htake (more : List BlockDevice) : (held ++ more).take maxBlockDev = held := by
        rw [List.take_append_of_le_length (by omega), List.take_of_length_le hle]
      rw [htake] at hnext
      rw [if_neg hlt] at hvfs
      rw [← hvfs] at h
      have hnodup' : ((held ++ devs).map BlockDevice.text).Nodup := by
        refine hnodup.sublist (List.Sublist.map _ ?_)
        exact (List.sublist_cons_self dev devs).append_left held
      have hlast := ih hnext h hrest hnodup' hrest'
      rw [htake] at hlast ⊢
      exact hlast

end Wnu.Block
