import Wnu.Shell.RoundTrip

/-! # What each command leaves alone

Only a line with one of five words in front changes the file system, and only `cd`
changes the current directory. A command that complains has changed nothing: `write`
creates a file before it writes it, but a file that it has created can be written.
-/

namespace Wnu.Shell

open Text Memory Vfs Fat32

variable {env : Surroundings} {s s' : State} {t : Table} {c : Command}
  {line path args : List UInt8}

/-! ## The first word -/

def Command.word : Command → Option (List UInt8)
  | cd _ => some (ascii "cd ")
  | touch _ => some (ascii "touch ")
  | mkdir _ => some (ascii "mkdir ")
  | rm _ => some (ascii "rm ")
  | mount _ => some (ascii "mount ")
  | write _ => some (ascii "write ")
  | _ => none

def vfsWords : List (List UInt8) :=
  [ascii "touch ", ascii "mkdir ", ascii "rm ", ascii "write ", ascii "mount "]

/-- The words of the commands that print nothing but complaints, and do nothing if they complain. -/
def silentWords : List (List UInt8) :=
  [ascii "cd ", ascii "touch ", ascii "mkdir ", ascii "rm ", ascii "write "]

theorem prefix_of_startsWith {w : List UInt8} (hw : text w = w)
    (h : stringStartsWith line w = true) : w <+: line := by
  rw [stringStartsWith_iff, hw] at h
  exact h.trans (prefix_text line)

def Worded (line : List UInt8) (c : Command) : Prop := ∀ w, c.word = some w → w <+: line

theorem worded_ite {P : Prop} [Decidable P] {c c' : Command} (h : P → Worded line c)
    (h' : Worded line c') : Worded line (if P then c else c') :=
  iteInduction h fun _ => h'

theorem worded_parse (line : List UInt8) : Worded line (parse line) := by
  unfold parse
  repeat' refine worded_ite (fun h => ?_) ?_
  all_goals rintro w ⟨⟩
  all_goals exact prefix_of_startsWith (by decide) h

theorem word_of_vfs_ne (hs : Step env s c s') (h : s'.vfs ≠ s.vfs) :
    ∃ w ∈ vfsWords, c.word = some w := by
  cases hs with
  | stay => exact absurd rfl h
  | cd => exact absurd rfl h
  | touch => exact ⟨ascii "touch ", by decide, rfl⟩
  | mkdir => exact ⟨ascii "mkdir ", by decide, rfl⟩
  | rm => exact ⟨ascii "rm ", by decide, rfl⟩
  | mount => exact ⟨ascii "mount ", by decide, rfl⟩
  | write => exact ⟨ascii "write ", by decide, rfl⟩

theorem word_of_currentDir_ne (hs : Step env s c s') (h : s'.currentDir ≠ s.currentDir) :
    c.word = some (ascii "cd ") := by
  cases hs with
  | cd => rfl
  | _ => exact absurd rfl h

/-! ## Complaints -/

theorem exec_eq_of_false (op : Op) (h : (Vfs.exec t op).1 = false) : (Vfs.exec t op).2 = t := by
  rcases exec_cases t op with he | ⟨_, _, _, -, -, -, he⟩ | ⟨_, _, -, -, -, he⟩ |
    ⟨_, _, _, -, -, -, -, he⟩ <;> rw [he] at h ⊢ <;> cases h

/-- The file at `p` has the given contents and no other path has changed. The file was there
before, or nothing was. -/
structure WritesOne (t t' : Table) (p contents : List UInt8) : Prop where
  file : HasFile t' p contents
  other : ∀ q, q ≠ p → t'.node q = t.node q
  before : t.node p = none ∨ ∃ node, t.node p = some node ∧ node.type = .file

theorem writesOne_of_added {t' : Table} {p contents : List UInt8} (h : t.node p = none)
    (ha : Added t t' p contents) : WritesOne t t' p contents :=
  ⟨ha.file, ha.node, .inl h⟩

theorem writesOne_writeFile (h : Inv t) {d : Mem UInt8} {size : UInt64}
    (hok : (writeFile t path (some d) size).1 = true) :
    WritesOne t (writeFile t path (some d) size).2 (text path)
      ((window d size.toNat).take 4096) := by
  have hfile := hasFile_writeFile h hok
  rw [writeFile] at hok hfile ⊢
  rcases updateFile_cases t path (some d) (Node.write size) with
    ⟨-, he⟩ | ⟨-, d', i, hd, hi, htype, he⟩
  · rw [he] at hok
    cases hok
  · obtain ⟨hu, hname⟩ := h.find_eq_some_iff.mp hi
    refine ⟨hfile, fun q hq => ?_, .inr ⟨_, node_eq_some_of_find hi, htype⟩⟩
    rw [he, node_modify h.distinct hu (keepsEntry_write size d'), if_neg (hname ▸ hq)]

theorem writeFile_cases (h : Inv t) (T : CString) (path : List UInt8) :
    let r := writeFile t path (some (ofList T.bytes 0)) (UInt64.ofNat (stringLen T.bytes))
    r = (false, t) ∨ r.1 = true ∧ WritesOne t r.2 (text path) (T.bytes.take 4096) := by
  intro r
  cases hok : r.1 with
  | false => exact .inl (Prod.ext hok (exec_eq_of_false (.writeFile path _ _) hok))
  | true =>
    have hone := writesOne_writeFile h hok
    rw [T.window_stringLen] at hone
    exact .inr ⟨rfl, hone⟩

/-- `write` fails and leaves the file system as it was, or writes one file. -/
theorem writePath_cases (h : Inv t) (T : CString) (path : List UInt8) :
    writePath T.bytes t path = (false, t) ∨ (writePath T.bytes t path).1 = true ∧
      WritesOne t (writePath T.bytes t path).2 (text path) (T.bytes.take 4096) := by
  rw [writePath]
  cases exists' t path with
  | true => exact writeFile_cases h T path
  | false =>
    simp only [Bool.not_false, if_true]
    rcases createNode_cases .file t path with ⟨-, he⟩ | ⟨c, -⟩
    · rw [createFile, he]
      exact writeFile_cases h T path
    · -- the second step writes the file that the first has made
      obtain ⟨hok, hadded⟩ := (added_createFile h c).2.writeFile (ofList T.bytes 0)
        (UInt64.ofNat (stringLen T.bytes))
      rw [T.window_stringLen] at hadded
      exact .inr ⟨hok, writesOne_of_added c.absent hadded⟩

theorem cd_eq_of_complaint (h : (cd env path s).1 ≠ []) : (cd env path s).2 = s := by
  revert h
  rw [cd]
  split
  · exact fun _ => rfl
  split
  · exact fun _ => rfl
  split
  · exact fun _ => rfl
  · exact fun h => absurd rfl h

theorem changePath_eq_of_complaint {invalid failed : String}
    {change : Table → List UInt8 → Bool × Table}
    (hchange : ∀ path, (change s.vfs path).1 = false → (change s.vfs path).2 = s.vfs)
    (h : (changePath env invalid failed change path s).1 ≠ []) :
    (changePath env invalid failed change path s).2 = s := by
  revert h
  rw [changePath]
  cases resolve env s path with
  | none => exact fun _ => rfl
  | some path =>
    intro h
    cases hok : (change s.vfs path).1 with
    | false => exact congrArg (fun vfs => { s with vfs := vfs }) (hchange path hok)
    | true => exact absurd (if_pos hok) h

/-! ## Writing -/

def CString.drop (str : CString) (n : ℕ) : CString where
  bytes := str.bytes.drop n
  ne_zero c hc := str.ne_zero c (List.mem_of_mem_drop hc)
  length_lt := by
    rw [List.length_drop]
    exact (Nat.sub_le _ _).trans_lt str.length_lt

theorem split_of_tokenLength (h : args.getD (tokenLength args) 0 = space) :
    args = args.take (tokenLength args) ++ space :: args.drop (tokenLength args + 1) ∧
      space ∉ args.take (tokenLength args) := by
  induction args with
  | nil => exact absurd h (by decide)
  | cons c args ih =>
    rw [tokenLength] at h ⊢
    split at h
    · rename_i hc
      rw [if_pos hc]
      obtain ⟨hsplit, hspace⟩ := ih h
      refine ⟨congrArg (c :: ·) hsplit, ?_⟩
      rw [List.take_succ_cons, List.mem_cons, not_or]
      exact ⟨hc.2.symm, hspace⟩
    · rename_i hc
      rw [if_neg hc]
      exact ⟨congrArg (· :: args) h, List.not_mem_nil⟩

theorem write_eq_of_complaint (hs : Good s) (A : CString) (h : (write env A.bytes s).1 ≠ []) :
    (write env A.bytes s).2 = s := by
  revert h
  rw [write]
  split
  · exact fun _ => rfl
  split
  · exact fun _ => rfl
  · refine changePath_eq_of_complaint fun path hfail => ?_
    rcases writePath_cases hs.inv (A.drop (tokenLength A.bytes + 1)) path with he | ⟨hok, -⟩
    · exact congrArg Prod.snd he
    · exact absurd (hfail.symm.trans hok) (by decide)

theorem writesOne_write (hs : Good s) (A : CString) (h : (write env A.bytes s).1 = []) :
    ∃ P T p, A.bytes = P ++ space :: T ∧ space ∉ P ∧ (resolve env s P).map text = some p ∧
      WritesOne s.vfs (write env A.bytes s).2.vfs p (T.take 4096) := by
  revert h
  rw [write]
  split
  · exact fun h => absurd (show ascii "usage: write /file text\n" = [] from h) (by decide)
  split
  · exact fun h => absurd (show ascii "path too long\n" = [] from h) (by decide)
  · rename_i hsep _
    obtain ⟨hsplit, hspace⟩ := split_of_tokenLength (not_not.mp hsep)
    rw [changePath]
    cases hpath : resolve env s (A.bytes.take (tokenLength A.bytes)) with
    | none =>
      exact fun h => absurd (show ascii "write: invalid path\n" = [] from h) (by decide)
    | some path =>
      intro h
      refine ⟨_, _, text path, hsplit, hspace, by rw [hpath]; rfl, ?_⟩
      rcases writePath_cases hs.inv (A.drop (tokenLength A.bytes + 1)) path with he | ⟨-, hone⟩
      · have hfail : (writePath (A.bytes.drop (tokenLength A.bytes + 1)) s.vfs path).1 = false :=
          congrArg Prod.fst he
        simp only [hfail] at h
        exact absurd h (by decide)
      · exact hone

/-! ## Every command line -/

theorem parse_of_writeWord (L : CString) (h : ascii "write " <+: L.bytes) :
    L.bytes = ascii "write " ++ (L.drop 6).bytes ∧ parse L.bytes = .write (L.drop 6).bytes := by
  have hdrop : (L.drop 6).bytes = L.bytes.drop 6 := rfl
  rw [hdrop]
  obtain ⟨rest, hrest⟩ := h
  rw [← hrest]
  exact ⟨rfl, rfl⟩

theorem execute_eq_of_complaint (hs : Good s) (env : Surroundings) (L : CString)
    {w : List UInt8} (hw : w ∈ silentWords) (hpre : w <+: L.bytes)
    (h : (execute env L.bytes s).1 ≠ .console []) : (execute env L.bytes s).2 = s := by
  have hout {out : List UInt8} (h : Output.console out ≠ .console []) : out ≠ [] :=
    fun he => h (congrArg Output.console he)
  obtain ⟨rest, hrest⟩ := hpre
  simp only [silentWords, List.mem_cons, List.not_mem_nil, or_false] at hw
  rcases hw with rfl | rfl | rfl | rfl | rfl
  · have hparse : parse L.bytes = .cd rest := hrest ▸ rfl
    rw [execute, hparse] at h ⊢
    exact cd_eq_of_complaint (hout h)
  · have hparse : parse L.bytes = .touch rest := hrest ▸ rfl
    rw [execute, hparse] at h ⊢
    exact changePath_eq_of_complaint
      (fun path hfail => exec_eq_of_false (.createFile path) hfail) (hout h)
  · have hparse : parse L.bytes = .mkdir rest := hrest ▸ rfl
    rw [execute, hparse] at h ⊢
    exact changePath_eq_of_complaint
      (fun path hfail => exec_eq_of_false (.createDir path) hfail) (hout h)
  · have hparse : parse L.bytes = .rm rest := hrest ▸ rfl
    rw [execute, hparse] at h ⊢
    exact changePath_eq_of_complaint
      (fun path hfail => exec_eq_of_false (.delete path) hfail) (hout h)
  · rw [execute, (parse_of_writeWord L ⟨rest, hrest⟩).2] at h ⊢
    exact write_eq_of_complaint hs (L.drop 6) (hout h)

/-- Only five words change the file system and only `cd` changes the current directory. The
commands that complain have changed nothing, and a `write` that does not has written one file. -/
theorem execute_frame (hs : Reachable s) (env : Surroundings) (L : CString) :
    let r := execute env L.bytes s
    (r.2.vfs ≠ s.vfs → ∃ w ∈ vfsWords, w <+: L.bytes) ∧
      (r.2.currentDir ≠ s.currentDir → ascii "cd " <+: L.bytes) ∧
      (∀ w ∈ silentWords, w <+: L.bytes → r.1 ≠ .console [] → r.2 = s) ∧
      (ascii "write " <+: L.bytes → r.1 = .console [] →
        ∃ P T p, L.bytes = writeLine P T ∧ space ∉ P ∧ (resolve env s P).map text = some p ∧
          WritesOne s.vfs r.2.vfs p (T.take 4096)) := by
  intro r
  have hstep : Step env s (parse L.bytes) r.2 := run_step env L.bytes (parse L.bytes) s
  refine ⟨fun hne => ?_, fun hne => ?_, fun w hw hpre hne => ?_, fun hpre hok => ?_⟩
  · obtain ⟨w, hw, hword⟩ := word_of_vfs_ne hstep hne
    exact ⟨w, hw, worded_parse L.bytes w hword⟩
  · exact worded_parse L.bytes _ (word_of_currentDir_ne hstep hne)
  · exact execute_eq_of_complaint hs.good env L hw hpre hne
  · obtain ⟨hline, hparse⟩ := parse_of_writeWord L hpre
    have hrun : r = (Command.write (L.drop 6).bytes).run env L.bytes s :=
      congrArg (fun c : Command => c.run env L.bytes s) hparse
    rw [hrun] at hok ⊢
    obtain ⟨P, T, p, hsplit, hspace, hp, hone⟩ :=
      writesOne_write hs.good (L.drop 6) (Output.console.inj hok)
    exact ⟨P, T, p, by rw [hline, hsplit, writeLine], hspace, hp, hone⟩

/-- `write` does not make the directory that it misses, and complains. -/
theorem execute_frame_missing :
    (execute bare (ascii "write /a/b c") (boot (init staticTable))).1 =
        .console (ascii "write: failed\n") ∧
      (execute bare (ascii "write /a/b c") (boot (init staticTable))).2 =
        boot (init staticTable) := by
  have hs : Reachable (boot (init staticTable)) :=
    ⟨init staticTable, [], reachable_init staticTable, rfl⟩
  have hout : (execute bare (ascii "write /a/b c") (boot (init staticTable))).1 =
      .console (ascii "write: failed\n") := by
    decide +kernel
  refine ⟨hout, ?_⟩
  refine (execute_frame hs bare ⟨ascii "write /a/b c", by decide +kernel, by decide⟩).2.2.1
    (ascii "write ") (by decide) (by decide) ?_
  rw [hout]
  decide

end Wnu.Shell
