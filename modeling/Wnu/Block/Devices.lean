import Wnu.Sata.BlockRead
import Wnu.Text.CString

/-! # Block devices

Devices are found by their names, and a read is handed to the driver of the device. A
driver returns a number other than zero for a read that has succeeded. Such a number is
honest if the command was seen completed and without an error. The SATA driver returns
one after its last poll as well, whatever the polls have seen.
-/

namespace Wnu.Block

open Text Sata

inductive ReadFn
  | sataBlockRead
  deriving DecidableEq

/-- `struct wnu_block_device` -/
structure BlockDevice where
  name : Vector UInt8 32
  driverData : Pointer
  read : Option ReadFn

/-- `devices` -/
abbrev Devices := Vector (Option BlockDevice) 8

/-- `strncmp` -/
def strncmp : List UInt8 → List UInt8 → ℕ → ℤ
  | _, _, 0 => 0
  | a, b, n + 1 =>
    if a.headD 0 ≠ b.headD 0 then (a.headD 0).toNat - (b.headD 0).toNat
    else if a.headD 0 = 0 then 0
    else strncmp a.tail b.tail n

/-- `wnu_block_find` -/
def blockFind (devices : Devices) (name : List UInt8) : Option BlockDevice :=
  let lookup := if name.take 5 = ascii "/dev/" then name.drop 5 else name
  devices.toList.reduceOption.find? fun dev => strncmp dev.name.toList lookup 32 = 0

/-- `wnu_block_read` -/
def blockRead (pf : Platform) (answers : Answers) (s : Controllers) (devices : Devices)
    (name : List UInt8) (lba buf count : UInt64) (c : Call) : Int32 × Call :=
  match blockFind devices name with
  | none => (0, c)
  | some d =>
    match d.read with
    | none => (0, c)
    | some .sataBlockRead => sataBlockRead pf answers s d.driverData lba buf count c

/-! ## Honest results -/

def isWrite : Event → Bool
  | .write _ _ => true
  | _ => false

/-- The last write to a register has issued a command, a poll after it has seen the command
completed, and the TFD that was read after this poll has no error. -/
def Completed (events : List Event) : Prop :=
  ∃ base ci before cur tfd,
    events.dropWhile (!isWrite ·) = .write (base + portCi) ci :: before ∧
      [.read (base + portTfd) tfd, .read (base + portCi) cur].Sublist
        (events.takeWhile (!isWrite ·)) ∧
      cur &&& 1 = 0 ∧ tfd &&& 1 = 0

/-- A result other than zero is only returned for a completed command. -/
def Honest (r : Int32 × Call) : Prop := r.1 ≠ 0 → Completed r.2.events

/-- If a call that is not for zero sectors issues a command, then one of the polls finds it
completed, or TFD has an error after the last poll. -/
def Answered (pf : Platform) (answers : Answers) (s : Controllers) (driverData : Pointer)
    (buf count : UInt64) (c : Call) : Prop :=
  ∀ ctrlIdx base, target pf answers s driverData buf count c.reads = some (ctrlIdx, base) →
    count.toUInt32 = 0 ∨
      (∃ t < maxPolls, answers (c.reads + 7 + t) (base + portCi) &&& 1 = 0) ∨
      answers (c.reads + 7 + maxPolls) (base + portTfd) &&& 1 ≠ 0

variable {pf : Platform} {answers : Answers} {s : Controllers} {driverData : Pointer}
  {base lba buf count : UInt64} {c : Call}

/-- What has happened since a command was issued, the newest first: no register was written, TFD
was read once, and before that the polls read CI. -/
theorem events_finish (answers : Answers) (count : UInt64) {f : String} {args : List ℤ}
    {ci : UInt32} {before : List Event}
    (h : c.events = .printf f args :: .write (base + portCi) ci :: before) {tfd : UInt32}
    (htfd : answers (pollCompletion answers base maxPolls c).reads (base + portTfd) = tfd) :
    ∃ since, (finish answers base count c).2.events =
        since ++ .write (base + portCi) ci :: before ∧
      (∀ e ∈ since, !isWrite e) ∧
      (∀ v, .read (base + portTfd) v ∈ since → v = tfd) ∧
      (∀ v, .read (base + portCi) v ∈ since → v &&& 1 = 0 → Completes answers base maxPolls c) ∧
      (Completes answers base maxPolls c → ∃ cur, cur &&& 1 = 0 ∧
        [.read (base + portTfd) tfd, .read (base + portCi) cur].Sublist since) := by
  obtain ⟨-, -, ⟨polls, hpolls, honly, hiff⟩, -⟩ := pollCompletion_spec answers base maxPolls c
  obtain ⟨-, prints, hprints, he⟩ := finish_spec answers base count c
  rw [htfd] at he
  have hregs : base + portCi ≠ base + portTfd := fun heq =>
    absurd (UInt64.add_right_inj base |>.mp heq) (by decide)
  -- the lines printed at the end, the read of TFD, the polls, and the line before them
  have hmem {e : Event}
      (he : e ∈ prints ++ .read (base + portTfd) tfd :: (polls ++ [.printf f args])) :
      (∃ f args, e = .printf f args) ∨ e = .read (base + portTfd) tfd ∨ e ∈ polls := by
    simp only [List.mem_append, List.mem_cons, List.not_mem_nil, or_false] at he
    rcases he with hp | rfl | hp | rfl
    · exact .inl (hprints e hp)
    · exact .inr (.inl rfl)
    · exact .inr (.inr hp)
    · exact .inl ⟨f, args, rfl⟩
  refine ⟨prints ++ .read (base + portTfd) tfd :: (polls ++ [.printf f args]), ?_, ?_, ?_, ?_, ?_⟩
  · rw [he, hpolls, h]
    simp
  · intro e hsince
    rcases hmem hsince with ⟨f', args', rfl⟩ | rfl | hp
    · rfl
    · rfl
    · obtain ⟨v, rfl⟩ := honly e hp
      rfl
  · intro v hsince
    rcases hmem hsince with ⟨f', args', hf⟩ | hr | hp
    · cases hf
    · exact (Event.read.inj hr).2
    · obtain ⟨v', hv'⟩ := honly _ hp
      exact absurd (Event.read.inj hv').1.symm hregs
  · intro v hsince hclear
    rcases hmem hsince with ⟨f', args', hf⟩ | hr | hp
    · cases hf
    · exact absurd (Event.read.inj hr).1 hregs
    · exact hiff.mpr ⟨v, hp, hclear⟩
  · intro hcompletes
    obtain ⟨cur, hcur, hclear⟩ := hiff.mp hcompletes
    refine ⟨cur, hclear, ?_⟩
    apply List.Sublist.trans _ (List.sublist_append_right ..)
    apply List.Sublist.cons_cons
    exact List.singleton_sublist.mpr (List.mem_append_left _ hcur)

theorem completed_finish_iff (answers : Answers) (count : UInt64) {f : String} {args : List ℤ}
    {ci : UInt32} {before : List Event}
    (h : c.events = .printf f args :: .write (base + portCi) ci :: before) :
    Completed (finish answers base count c).2.events ↔
      Completes answers base maxPolls c ∧
        answers (pollCompletion answers base maxPolls c).reads (base + portTfd) &&& 1 = 0 := by
  generalize htfd : answers (pollCompletion answers base maxPolls c).reads (base + portTfd) = tfd
  obtain ⟨since, hevents, hno, hread, hpoll, hseen⟩ := events_finish answers count h htfd
  rw [Completed, hevents, List.dropWhile_append_of_pos hno, List.takeWhile_append_of_pos hno]
  simp only [isWrite, Bool.not_true, Bool.false_eq_true, not_false_eq_true,
    List.dropWhile_cons_of_neg, List.takeWhile_cons_of_neg, List.append_nil]
  constructor
  · rintro ⟨base', ci', before', cur, tfd', hwrite, hsub, hclear, herr⟩
    obtain rfl := UInt64.add_left_inj portCi |>.mp (Event.write.inj (List.cons.inj hwrite).1).1
    constructor
    · exact hpoll cur (hsub.subset (by simp)) hclear
    · rwa [← hread tfd' (hsub.subset (by simp))]
  · rintro ⟨hcompletes, herr⟩
    obtain ⟨cur, hclear, hsub⟩ := hseen hcompletes
    exact ⟨base, ci, before, cur, tfd, rfl, hsub, hclear, herr⟩

theorem toInt32_eq_zero_iff (x : UInt32) : x.toInt32 = 0 ↔ x = 0 := by
  constructor
  · intro h
    have hback := congrArg Int32.toUInt32 h
    rw [UInt32.toUInt32_toInt32] at hback
    exact hback
  · rintro rfl
    rfl

theorem sataBlockRead_honest_iff (pf : Platform) (answers : Answers) (s : Controllers)
    (driverData : Pointer) (lba buf count : UInt64) (c : Call) :
    Honest (sataBlockRead pf answers s driverData lba buf count c) ↔
      Answered pf answers s driverData buf count c := by
  rcases sataBlockRead_cases pf answers s driverData lba buf count c with
    ⟨hnone, hzero⟩ | ⟨ctrlIdx, base, c', hsome, hissued, he⟩
  · apply iff_of_true
    · exact fun hne => absurd hzero hne
    · intro ctrlIdx base htarget
      rw [hnone] at htarget
      cases htarget
  · obtain ⟨ci, before, hevents⟩ := hissued.events
    have hcompleted := completed_finish_iff answers count hevents
    obtain ⟨hresult, -⟩ := finish_spec answers base count c'
    have hreads (hn : ¬ Completes answers base maxPolls c') :
        (pollCompletion answers base maxPolls c').reads = c.reads + 7 + maxPolls := by
      rw [(pollCompletion_spec answers base maxPolls c').reads hn, hissued.reads]
    have hanswered : Answered pf answers s driverData buf count c ↔
        count.toUInt32 = 0 ∨ Completes answers base maxPolls c' ∨
          answers (c.reads + 7 + maxPolls) (base + portTfd) &&& 1 ≠ 0 := by
      rw [Completes, hissued.reads]
      constructor
      · exact fun hall => hall ctrlIdx base hsome
      · intro h i b hib
        rw [hsome] at hib
        cases hib
        exact h
    rw [Honest, he, hresult, hcompleted, hanswered]
    by_cases hcompletes : Completes answers base maxPolls c'
    · apply iff_of_true _ (.inr (.inl hcompletes))
      intro hne
      refine ⟨hcompletes, ?_⟩
      by_contra herr
      rw [if_neg herr] at hne
      exact hne rfl
    · rw [hreads hcompletes]
      by_cases herr : answers (c.reads + 7 + maxPolls) (base + portTfd) &&& 1 = 0
      · rw [if_pos herr]
        simp [hcompletes, herr, toInt32_eq_zero_iff]
      · rw [if_neg herr]
        simp [herr]

/-- A read that returns a number other than zero has seen its command completed without an
error exactly if the command is answered within the polls or TFD has an error after them. -/
theorem blockRead_honest_iff (pf : Platform) (answers : Answers) (s : Controllers)
    (lba buf count : UInt64) (c : Call) :
    (∀ driverData, Honest (sataBlockRead pf answers s driverData lba buf count c) ↔
      Answered pf answers s driverData buf count c) ∧
    ∀ devices name, Honest (blockRead pf answers s devices name lba buf count c) ↔
      ∀ d, blockFind devices name = some d → d.read = some .sataBlockRead →
        Answered pf answers s d.driverData buf count c := by
  constructor
  · intro driverData
    exact sataBlockRead_honest_iff pf answers s driverData lba buf count c
  · intro devices name
    unfold blockRead
    cases hfind : blockFind devices name with
    | none => exact iff_of_true (fun hne => absurd rfl hne) fun d hd => by cases hd
    | some d =>
      obtain ⟨dname, driverData, read⟩ := d
      cases read with
      | none =>
        apply iff_of_true
        · exact fun hne => absurd rfl hne
        · rintro _ ⟨⟩ hread
          cases hread
      | some f =>
        cases f
        refine (sataBlockRead_honest_iff pf answers s driverData lba buf count c).trans ?_
        constructor
        · rintro hanswered _ ⟨⟩ -
          exact hanswered
        · intro hall
          exact hall _ rfl rfl

def stuck : Answers := fun _ address => if address = 0x110 + portTfd then 0 else 1

theorem not_honest_stuck :
    ¬ ∀ (pf : Platform) (answers : Answers) (s : Controllers) (driverData : Pointer)
      (lba buf count : UInt64) (c : Call),
      Honest (sataBlockRead pf answers s driverData lba buf count c) := by
  intro hall
  have hanswered := (sataBlockRead_honest_iff identityMapped stuck oneController (.ctrl 0) 0
    0x4000 1 freshCall).mp (hall identityMapped stuck oneController (.ctrl 0) 0 0x4000 1 freshCall)
  have htarget : target identityMapped stuck oneController (.ctrl 0) 0x4000 1 freshCall.reads =
      some (0, 0x110) := by decide
  rcases hanswered 0 0x110 htarget with hzero | ⟨t, -, hclear⟩ | herr
  · revert hzero
    decide
  · exact absurd hclear (by simp [stuck]; decide)
  · exact absurd herr (by simp [stuck])

end Wnu.Block
