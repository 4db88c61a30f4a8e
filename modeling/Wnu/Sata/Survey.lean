import Wnu.Sata.Listing

/-! # What a list of the devices shows

The lines are spelled out here, apart from their formats. The row of a port has two strings in
fields of a certain width, which `printf` does not know: the signs of these fields are printed
as they stand, and every number behind them is that of an argument two places before its own.
-/

namespace Wnu.Sata

open Memory Lib Text Runs Pci

variable {cfg : ConfigSpace} {p : Place} {i port : ℕ}

/-! ## The lines -/

def placeText (p : Place) : List UInt8 :=
  dec p.1.toNat ++ ascii ":" ++ dec p.2.1.toNat ++ ascii "." ++ dec p.2.2.toNat

def bar5At (cfg : ConfigSpace) (p : Place) : UInt32 := register cfg p 0x24

def nonAhciLine (cfg : ConfigSpace) (p : Place) (i : ℕ) : List UInt8 :=
  ascii "sata" ++ dec i ++ ascii " controller non-ahci  " ++ placeText p ++
    ascii "       vendor=0x" ++ hex (vendorId cfg p).toNat ++
    ascii " device=0x" ++ hex (deviceId cfg p).toNat ++ ascii "\n"

def badBarLine (cfg : ConfigSpace) (p : Place) (i : ℕ) : List UInt8 :=
  ascii "sata" ++ dec i ++ ascii " controller bad-bar   " ++ placeText p ++
    ascii "       BAR5=0x" ++ hex (bar5At cfg p).toNat ++ ascii "\n"

def ahciLine (cfg : ConfigSpace) (p : Place) (i : ℕ) (r : Reading) : List UInt8 :=
  ascii "sata" ++ dec i ++ ascii " controller ahci      " ++ placeText p ++
    ascii "       abar=0x" ++ hex (bar5At cfg p &&& 0xfffffff0).toNat ++
    ascii " pi=0x" ++ hex r.pi.toNat ++ ascii " cap=0x" ++ hex r.cap.toNat ++ ascii "\n"

/-- The row of a port, with its signature and its state. Only the addresses of the two words for
them are shown, where the bus and the slot are to be, and the function and the port number stand
where the signature and the state are to be. -/
def portRow (literalAt : String → UInt64) (p : Place) (port : ℕ) (sig ssts : UInt32) :
    List UInt8 :=
  ascii "sd" ++ UInt8.ofNat (97 + port) :: ascii "    %-8s  %-10s  " ++
    dec (literalAt (deviceType sig)).toUInt32.toNat ++ ascii ":" ++
    dec (literalAt (linkState ssts)).toUInt32.toNat ++ ascii "." ++ dec p.1.toNat ++
    ascii "       port=" ++ dec p.2.1.toNat ++ ascii " sig=0x" ++ hex p.2.2.toNat ++
    ascii " ssts=0x" ++ hex port ++ ascii "\n"

def portsOf (pi : UInt32) : List ℕ := (List.range 32).filter fun port => pi.toNat.testBit port

def controllerLines (literalAt : String → UInt64) (cfg : ConfigSpace) (p : Place) (i : ℕ)
    (r : Reading) : List UInt8 :=
  if progIf cfg p ≠ 1 then nonAhciLine cfg p i
  else if bar5At cfg p = 0 ∨ bar5At cfg p &&& 1 ≠ 0 then badBarLine cfg p i
  else
    ahciLine cfg p i r ++
      (portsOf r.pi).flatMap fun port => portRow literalAt p port (r.port port).1 (r.port port).2

def listed (cfg : ConfigSpace) : List (Place × ℕ) := ((controllers cfg).take 16).zipIdx

def surveyText (literalAt : String → UInt64) (cfg : ConfigSpace) (r : ℕ → Reading) :
    List UInt8 :=
  (if 16 < (controllers cfg).length then ascii "sata: controller table full\n" else []) ++
    ascii "NAME   TYPE      STATE       BUS:SLOT.FUNC  INFO\n" ++
    if controllers cfg = [] then
      ascii "none   -         -           -              no SATA/AHCI controllers found\n"
    else (listed cfg).flatMap fun q => controllerLines literalAt cfg q.1 q.2 (r q.2)

/-! ## The formats -/

theorem bar5_ctrlInfoAt (cfg : ConfigSpace) (p : Place) :
    (ctrlInfoAt cfg p).bar5 = bar5At cfg p := by
  have hbar : (ctrlInfoAt cfg p).bar5 = (ctrlInfoAt cfg p).bar[5] := rfl
  rw [hbar]
  simp only [ctrlInfoAt, Vector.getElem_ofFn]
  rfl

theorem slot_zero (a : Arg) (args : List Arg) : (argsOf (a :: args)).slot 0 = a.slot := rfl

theorem slot_succ (a : Arg) (args : List Arg) (k : ℕ) :
    (argsOf (a :: args)).slot (k + 1) = (argsOf args).slot k := rfl

theorem slot_byte (c : UInt8) : (Arg.num c.toNat).slot.toUInt32.toNat = c.toNat :=
  slot_num (Nat.lt_trans c.toNat_lt (by decide))

theorem slot_half (c : UInt16) : (Arg.num c.toNat).slot.toUInt32.toNat = c.toNat :=
  slot_num (Nat.lt_trans c.toNat_lt (by decide))

theorem slot_word (c : UInt32) : (Arg.num c.toNat).slot.toUInt32.toNat = c.toNat :=
  slot_num c.toNat_lt

theorem slot_literalArg (literalAt : String → UInt64) (s : String) :
    (literalArg literalAt s).slot = literalAt s := rfl

theorem listNonAhci_eq (cfg : ConfigSpace) (p : Place) (hi : i < 2 ^ 32) :
    listNonAhci (ctrlInfoAt cfg p) i = nonAhciLine cfg p i := by
  have hformat : ascii "sata%u controller non-ahci  %u:%u.%u       vendor=0x%x device=0x%x\n" =
      ascii "sata" ++ 37 :: 117 :: (ascii " controller non-ahci  " ++ 37 :: 117 :: (ascii ":" ++
        37 :: 117 :: (ascii "." ++ 37 :: 117 :: (ascii "       vendor=0x" ++ 37 :: 120 ::
          (ascii " device=0x" ++ 37 :: 120 :: ascii "\n"))))) := by decide +kernel
  rw [listNonAhci, printed_eq _ _ (by decide +kernel), hformat, nonAhciLine, placeText]
  simp (disch := decide) only [textFrom_literals, textFrom_decimal, textFrom_hexadecimal,
    textFrom_last, slot_zero, slot_succ, slot_byte, slot_half, slot_num hi, ctrlInfoAt,
    List.append_assoc]

theorem listBadBar_eq (cfg : ConfigSpace) (p : Place) (hi : i < 2 ^ 32) :
    listBadBar (ctrlInfoAt cfg p) i = badBarLine cfg p i := by
  have hformat : ascii "sata%u controller bad-bar   %u:%u.%u       BAR5=0x%x\n" =
      ascii "sata" ++ 37 :: 117 :: (ascii " controller bad-bar   " ++ 37 :: 117 :: (ascii ":" ++
        37 :: 117 :: (ascii "." ++ 37 :: 117 :: (ascii "       BAR5=0x" ++ 37 :: 120 ::
          ascii "\n")))) := by decide +kernel
  rw [listBadBar, printed_eq _ _ (by decide +kernel), hformat, badBarLine, placeText,
    bar5_ctrlInfoAt]
  simp (disch := decide) only [textFrom_literals, textFrom_decimal, textFrom_hexadecimal,
    textFrom_last, slot_zero, slot_succ, slot_byte, slot_word, slot_num hi, ctrlInfoAt,
    List.append_assoc]

theorem listHead_eq (cfg : ConfigSpace) (p : Place) (hi : i < 2 ^ 32) (r : Reading) :
    listHead (ctrlInfoAt cfg p) i r.cap r.pi = ahciLine cfg p i r := by
  have hformat : ascii "sata%u controller ahci      %u:%u.%u       abar=0x%x pi=0x%x cap=0x%x\n" =
      ascii "sata" ++ 37 :: 117 :: (ascii " controller ahci      " ++ 37 :: 117 :: (ascii ":" ++
        37 :: 117 :: (ascii "." ++ 37 :: 117 :: (ascii "       abar=0x" ++ 37 :: 120 ::
          (ascii " pi=0x" ++ 37 :: 120 :: (ascii " cap=0x" ++ 37 :: 120 ::
            ascii "\n")))))) := by decide +kernel
  rw [listHead, printed_eq _ _ (by decide +kernel), hformat, ahciLine, placeText,
    bar5_ctrlInfoAt]
  simp (disch := decide) only [textFrom_literals, textFrom_decimal, textFrom_hexadecimal,
    textFrom_last, slot_zero, slot_succ, slot_byte, slot_word, slot_num hi, ctrlInfoAt,
    List.append_assoc]

/-- The two strings of a row are left for the numbers behind them. -/
theorem listRow_eq (literalAt : String → UInt64) (cfg : ConfigSpace) (p : Place)
    (hport : port < 2 ^ 32) (sig ssts : UInt32) :
    listRow literalAt (ctrlInfoAt cfg p) port sig ssts = portRow literalAt p port sig ssts := by
  have hformat : ascii "sd%c    %-8s  %-10s  %u:%u.%u       port=%u sig=0x%x ssts=0x%x\n" =
      ascii "sd" ++ 37 :: 99 :: (ascii "    " ++ 37 :: 45 :: (ascii "8s  " ++ 37 :: 45 ::
        (ascii "10s  " ++ 37 :: 117 :: (ascii ":" ++ 37 :: 117 :: (ascii "." ++ 37 :: 117 ::
          (ascii "       port=" ++ 37 :: 117 :: (ascii " sig=0x" ++ 37 :: 120 ::
            (ascii " ssts=0x" ++ 37 :: 120 :: ascii "\n")))))))) := by decide +kernel
  have hfields : ascii "    %-8s  %-10s  " =
      ascii "    " ++ (ascii "%-" ++ (ascii "8s  " ++ (ascii "%-" ++ ascii "10s  "))) := by decide
  rw [listRow, printed_eq _ _ (by decide +kernel), hformat, portRow, hfields]
  simp (disch := decide) only [textFrom_literals, textFrom_decimal, textFrom_hexadecimal,
    textFrom_character, textFrom_minus, textFrom_last, slot_zero, slot_succ, slot_byte,
    slot_toInt, slot_literalArg, slot_num hport, ctrlInfoAt, List.append_assoc,
    List.cons_append]

/-! ## The list -/

theorem implementedBelow_eq (pi : UInt32) : implementedBelow pi 32 = portsOf pi := by
  rw [implementedBelow, portsOf]
  apply List.filter_congr
  intro port hport
  have hlt : port < 32 := List.mem_range.mp hport
  have hshift : port % 2 ^ 32 % 32 = port := by omega
  have hone : UInt32.toNat 1 = 1 := rfl
  have hand : (pi &&& ((1 : UInt32) <<< UInt32.ofNat port)).toNat =
      (pi.toNat.testBit port).toNat * 2 ^ port := by
    rw [UInt32.toNat_and, UInt32.toNat_shiftLeft, UInt32.toNat_ofNat', hshift, hone,
      Nat.one_shiftLeft, Nat.mod_eq_of_lt (Nat.pow_lt_pow_right (by decide) hlt),
      Nat.and_two_pow]
  have hzero : pi &&& ((1 : UInt32) <<< UInt32.ofNat port) = 0 ↔
      pi.toNat.testBit port = false := by
    rw [← UInt32.toNat_inj, hand]
    cases pi.toNat.testBit port
    · exact iff_of_true (Nat.zero_mul _) rfl
    · have hne : 1 * 2 ^ port ≠ UInt32.toNat 0 := by
        rw [Nat.one_mul]
        exact (Nat.two_pow_pos port).ne'
      exact iff_of_false hne (by decide)
  simp only [ne_eq, hzero, Bool.not_eq_false, Bool.decide_eq_true]

theorem portsText_eq (literalAt : String → UInt64) (cfg : ConfigSpace) (p : Place) (pi : UInt32)
    (readings : ℕ → UInt32 × UInt32) :
    portsText pi 32 (listRow literalAt (ctrlInfoAt cfg p)) readings =
      (portsOf pi).flatMap fun port =>
        portRow literalAt p port (readings port).1 (readings port).2 := by
  rw [portsText, implementedBelow_eq]
  apply List.flatMap_congr
  intro port hport
  have hlt : port < 32 := List.mem_range.mp (List.mem_of_mem_filter hport)
  exact listRow_eq literalAt cfg p (Nat.lt_trans hlt (by decide)) _ _

theorem controllerText_eq (literalAt : String → UInt64) (cfg : ConfigSpace) (p : Place)
    (hi : i < 2 ^ 32) (r : Reading) :
    controllerText (listing literalAt) (ctrlInfoAt cfg p) i r =
      controllerLines literalAt cfg p i r := by
  have hbar5 := bar5_ctrlInfoAt cfg p
  have hprog : (ctrlInfoAt cfg p).progIf = progIf cfg p := rfl
  rw [controllerText, controllerLines, other_listing, head_listing, row_listing, hprog]
  by_cases hahci : progIf cfg p = progIfAhci
  · by_cases hbar : bar5At cfg p = 0 ∨ bar5At cfg p &&& 1 ≠ 0
    · have hother : ¬ (ctrlInfoAt cfg p).Mapped := by
        rintro ⟨-, hne, hmem⟩
        rw [hbar5] at hne hmem
        exact hbar.elim hne fun hio => hio hmem
      rw [if_neg hother, if_neg (not_not.mpr hahci), if_neg (not_not.mpr hahci), if_pos hbar]
      exact listBadBar_eq cfg p hi
    · obtain ⟨hne, hmem⟩ := not_or.mp hbar
      have hmapped : (ctrlInfoAt cfg p).Mapped := by
        refine ⟨hahci, ?_, ?_⟩
        · rwa [hbar5]
        · rw [hbar5]
          exact not_not.mp hmem
      rw [if_pos hmapped, if_neg (not_not.mpr hahci), if_neg hbar, listHead_eq cfg p hi,
        portsText_eq]
  · have hother : ¬ (ctrlInfoAt cfg p).Mapped := fun hmapped => hahci hmapped.1
    rw [if_neg hother, if_pos hahci, if_pos hahci]
    exact listNonAhci_eq cfg p hi

theorem scanText_scanPci (cfg : ConfigSpace) (t : Table) :
    scanText (scanPci cfg { t with printed := [] }) =
      if 16 < (controllers cfg).length then ascii "sata: controller table full\n" else [] := by
  have hcontrollers : ∀ p ∈ controllers cfg, IsController cfg p := fun p hp => mem_controllers.mp hp
  have hprinted := printed_forEach_scanFunction
    (t := { t with printed := [], count := 0 }) hcontrollers (Nat.zero_le maxControllers)
  rw [Nat.zero_add] at hprinted
  rw [scanText, scanPci_eq, hprinted]
  split_ifs
  · rw [List.reverse_singleton, List.flatMap_singleton]
  · rfl

theorem flatMap_window {t : Table}
    (h : window t.ctrls t.count = ((controllers cfg).take maxControllers).map (ctrlInfoAt cfg))
    (f : CtrlInfo → ℕ → List α) :
    (List.range t.count).flatMap (fun i => f (t.ctrls i) i) =
      (listed cfg).flatMap fun q => f (ctrlInfoAt cfg q.1) q.2 := by
  have hzip : (window t.ctrls t.count).zipIdx =
      (List.range t.count).map fun i => (t.ctrls i, i) := by
    apply List.ext_getElem
    · simp only [window, List.length_zipIdx, List.length_map]
    · intro i hi hi'
      simp only [window, List.getElem_zipIdx, List.getElem_map, List.getElem_range, Nat.zero_add]
  have hrange : (List.range t.count).flatMap (fun i => f (t.ctrls i) i) =
      (window t.ctrls t.count).zipIdx.flatMap fun e => f e.1 e.2 := by
    rw [hzip, List.flatMap_map]
  rw [hrange, h, List.zipIdx_map, List.flatMap_map, listed]
  rfl

/-- A list of the devices fills the table anew with the first sixteen controllers. Of each of them
that is driven through memory, it reads the capabilities and the ports that are implemented, and of
each of these, in their order, the signature and the state. It accesses no other register, and
prints a line for every controller and a row for every port. -/
theorem printDevices_survey (pf : Platform) (dev : Answers) (literalAt : String → UInt64)
    (cfg : ConfigSpace) (t : Table) (w : Walk) :
    ∃ r : ℕ → Reading,
      let (t', w') := printDevices pf dev literalAt cfg t w
      window t'.ctrls t'.count = (listed cfg).map (fun q => ctrlInfoAt cfg q.1) ∧
      w'.log = w.log ++ (listed cfg).flatMap (fun q =>
        controllerLog pf (ctrlInfoAt cfg q.1) (r q.2)) ∧
      w'.output = w.output ++ surveyText literalAt cfg r := by
  have hwindow := window_scanPci cfg { t with printed := [] }
  have hscan := scanText_scanPci cfg t
  unfold printDevices
  dsimp only
  generalize scanPci cfg { t with printed := [] } = t' at hwindow hscan ⊢
  have htable : window t'.ctrls t'.count = (listed cfg).map fun q => ctrlInfoAt cfg q.1 := by
    rw [hwindow, listed, ← List.zipIdx_map_fst 0 ((controllers cfg).take maxControllers),
      List.map_map, List.zipIdx_map_fst]
    rfl
  have hcount : t'.count = 0 ↔ controllers cfg = [] := by
    have hlength := congrArg List.length hwindow
    rw [length_window, List.length_map, List.length_take] at hlength
    rw [hlength, ← List.length_eq_zero_iff, Nat.min_eq_zero_iff]
    exact or_iff_right (by decide)
  by_cases hzero : t'.count = 0
  · refine ⟨fun _ => ⟨0, 0, fun _ => (0, 0)⟩, ?_⟩
    rw [if_pos hzero]
    have hempty : controllers cfg = [] := hcount.mp hzero
    have hnone : listed cfg = [] := by rw [listed, hempty, List.take_nil, List.zipIdx_nil]
    refine ⟨htable, ?_, ?_⟩
    · rw [hnone]
      exact (List.append_nil _).symm
    · rw [surveyText, if_pos hempty, ← hscan]
      simp only [Walk.put, heading, emptyLine, List.append_assoc]
  · have hstep : ∀ ctrl i w, Surveys pf (listing literalAt) ctrl i w
        (listController pf dev literalAt ctrl i w) := surveys_listController
    obtain ⟨r, hlog, houtput⟩ := surveys_forLoop hstep t'.ctrls t'.count
      ((w.put (scanText t')).put heading)
    have hlines : ∀ q ∈ listed cfg,
        controllerText (listing literalAt) (ctrlInfoAt cfg q.1) q.2 (r q.2) =
          controllerLines literalAt cfg q.1 q.2 (r q.2) := by
      intro q hq
      have hlt : q.2 < ((controllers cfg).take 16).length + 0 := List.snd_lt_of_mem_zipIdx hq
      have hle : ((controllers cfg).take 16).length ≤ 16 := List.length_take_le 16 _
      exact controllerText_eq literalAt cfg q.1 (by omega) (r q.2)
    refine ⟨r, ?_⟩
    rw [if_neg hzero]
    refine ⟨htable, ?_, ?_⟩
    · rw [hlog, flatMap_window hwindow fun c i => controllerLog pf c (r i)]
      rfl
    · rw [houtput, flatMap_window hwindow fun c i => controllerText (listing literalAt) c i (r i)]
      rw [surveyText, if_neg (fun hempty => hzero (hcount.mpr hempty)), ← hscan,
        List.flatMap_congr hlines]
      simp only [Walk.put, heading, List.append_assoc]

end Wnu.Sata
