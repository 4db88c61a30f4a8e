import Wnu.Shell.Effects

/-! # Writing and printing a file

What `write` puts into a file is what `cat` prints of it, however the path is spelled
and whatever other commands come between, as long as none of them removes or writes the
file.
-/

namespace Wnu.Shell

open Text Memory Vfs Fat32

structure CString where
  bytes : List UInt8
  ne_zero : ∀ c ∈ bytes, c ≠ 0
  length_lt : bytes.length < 2 ^ 64

theorem CString.text_bytes (str : CString) : text str.bytes = str.bytes := text_eq_self str.ne_zero

theorem CString.window_stringLen (str : CString) :
    window (ofList str.bytes 0) (UInt64.ofNat (stringLen str.bytes)).toNat = str.bytes := by
  have hsize : (UInt64.ofNat (stringLen str.bytes)).toNat = str.bytes.length := by
    rw [stringLen_eq, str.text_bytes, UInt64.toNat_ofNat']
    exact Nat.mod_eq_of_lt str.length_lt
  rw [hsize, window_ofList]

/-- The line `write <path> <text>`. -/
def writeLine (path str : List UInt8) : List UInt8 := ascii "write " ++ (path ++ space :: str)

/-- The line `cat <path>`. -/
def catLine (path : List UInt8) : List UInt8 := ascii "cat " ++ path

/-- A text with a newline at its end, if it has none. -/
def endLine (str : List UInt8) : List UInt8 :=
  if str.getLast? = some newline then str else str ++ [newline]

variable {env : Surroundings} {s : State} {t : Table} {path p contents : List UInt8}

/-! ## The two lines -/

theorem parse_writeLine (path str : List UInt8) :
    parse (writeLine path str) = .write (path ++ space :: str) := rfl

theorem parse_catLine (path : List UInt8) : parse (catLine path) = .cat path := rfl

theorem tokenLength_append {path : List UInt8} (hzero : ∀ c ∈ path, c ≠ 0) (hspace : space ∉ path)
    (str : List UInt8) : tokenLength (path ++ space :: str) = path.length := by
  induction path with
  | nil => rfl
  | cons c path ih =>
    have hc : c ≠ 0 := hzero c List.mem_cons_self
    have hs : c ≠ space := fun h => hspace (h ▸ List.mem_cons_self)
    rw [List.cons_append, tokenLength, if_pos ⟨hc, hs⟩, List.length_cons,
      ih (fun d hd => hzero d (List.mem_cons_of_mem c hd))
        fun h => hspace (List.mem_cons_of_mem c h)]

theorem write_eq (P : CString) (hspace : space ∉ P.bytes) (str : List UInt8) (s : State) :
    write env (P.bytes ++ space :: str) s =
      if P.bytes.length ≥ pathMax then (ascii "path too long\n", s)
      else changePath env "write: invalid path\n" "write: failed\n" (writePath str) P.bytes s := by
  have hspace' : (P.bytes ++ space :: str).getD P.bytes.length 0 = space := by simp
  have htake : (P.bytes ++ space :: str).take P.bytes.length = P.bytes := List.take_left ..
  have hdrop : (P.bytes ++ space :: str).drop (P.bytes.length + 1) = str := by
    simp [List.drop_append]
  simp only [write, tokenLength_append P.ne_zero hspace, hspace', htake, hdrop, ne_eq,
    not_true_eq_false, if_false]

/-! ## Writing -/

theorem hasFile_writeFile (h : Inv t) {d : Mem UInt8} {size : UInt64}
    (hok : (writeFile t path (some d) size).1 = true) :
    HasFile (writeFile t path (some d) size).2 (text path) ((window d size.toNat).take 4096) := by
  rw [writeFile] at hok ⊢
  rcases updateFile_cases t path (some d) (Node.write size) with
    ⟨-, he⟩ | ⟨-, d', i, hd, hi, htype, he⟩ <;> rw [he] at hok ⊢
  · cases hok
  · cases hd
    obtain ⟨hu, hname⟩ := h.find_eq_some_iff.mp hi
    have hkeep := keepsEntry_write size d
    refine ⟨_, ?_, (hkeep.type _).trans htype, contents_write size d _⟩
    rw [node_modify h.distinct hu hkeep, if_pos hname.symm]

theorem hasFile_writePath (h : Inv t) (T : CString) (hok : (writePath T.bytes t path).1 = true) :
    HasFile (writePath T.bytes t path).2 (text path) (T.bytes.take 4096) := by
  rw [writePath] at hok ⊢
  have hinv : Inv (if !exists' t path then (createFile t path).2 else t) := by
    split
    · exact h.exec (.createFile path)
    · exact h
  have hfile := hasFile_writeFile hinv hok
  rwa [T.window_stringLen] at hfile

theorem hasFile_write (h : Good s) (P T : CString) (hspace : space ∉ P.bytes)
    (hp : (resolve env s P.bytes).map text = some p)
    (hok : (execute env (writeLine P.bytes T.bytes) s).1 = .console []) :
    HasFile (execute env (writeLine P.bytes T.bytes) s).2.vfs p (T.bytes.take 4096) := by
  obtain ⟨path, hpath, rfl⟩ := Option.map_eq_some_iff.mp hp
  rw [execute, parse_writeLine] at hok ⊢
  simp only [Command.run, write_eq P hspace] at hok ⊢
  split at hok
  · cases hok
  · rename_i hlen
    rw [if_neg hlen]
    simp only [changePath, hpath] at hok ⊢
    refine hasFile_writePath h.inv T ?_
    by_contra hfail
    rw [if_neg hfail] at hok
    cases hok

/-! ## Printing -/

theorem catPath_eq (h : Inv t) (hf : HasFile t (text path) contents) :
    catPath t path = endLine contents := by
  obtain ⟨node, hn, htype, rfl⟩ := hf
  have hcontents := contentsOf_eq h hn htype
  obtain ⟨⟨data, size⟩, hread, hwindow⟩ := Option.map_eq_some_iff.mp hcontents
  have hline : ascii "\n" = [newline] := rfl
  rw [← hwindow, catPath, hread]
  simp only [hline]
  rcases Nat.eq_zero_or_pos size.toNat with hzero | hpos
  · have hsize : size = 0 := UInt64.toNat_inj.mp hzero
    rw [if_pos (.inl hsize), hzero]
    rfl
  · obtain ⟨k, hk⟩ := Nat.exists_eq_add_of_le' hpos
    have hsize : size ≠ 0 := by
      rintro rfl
      exact absurd hpos (by decide)
    have hlast : (size - 1).toNat = k := by
      have hone : (1 : UInt64).toNat = 1 := rfl
      rw [UInt64.toNat_sub_of_le _ _ (UInt64.le_iff_toNat_le.mpr (by omega)), hone]
      omega
    rw [hk, window_succ, endLine, hlast]
    by_cases hnl : data k = newline
    · simp [hnl, hsize]
    · simp [hnl]

/-- A file keeps its contents while commands do not remove or write it. -/
theorem HasFile.run (hf : HasFile s.vfs p contents) (hg : Good s) {inputs : List Input}
    (hinputs : Runs.Along Shell.exec (fun s i => ¬ Touches i.1 s p (parse i.2)) s inputs) :
    HasFile (Runs.run Shell.exec s inputs).vfs p contents := by
  have hboth : Good (Runs.run Shell.exec s inputs) ∧
      HasFile (Runs.run Shell.exec s inputs).vfs p contents := by
    refine Runs.run_invariant_along
      (P := fun s => Good s ∧ HasFile s.vfs p contents) ?_ ⟨hg, hf⟩ hinputs
    rintro s i ⟨hg, hf⟩ hc
    exact ⟨hg.exec i, hf.step hg (run_step _ _ _ _) hc⟩
  exact hboth.2

theorem HasFile.cat {input : List UInt8} (hf : HasFile s.vfs p contents) (hg : Good s)
    (env : Surroundings) (hinput : (resolve env s input).map text = some p) :
    (execute env (catLine input) s).1 = .console (endLine contents) := by
  obtain ⟨path, hpath, rfl⟩ := Option.map_eq_some_iff.mp hinput
  have hcat : (execute env (catLine input) s).1 = .console (catPath s.vfs path) := by
    rw [execute, parse_catLine]
    simp only [Command.run, Shell.cat, showPath, hpath]
  rw [hcat, catPath_eq hg.inv hf]

/-- What `write` puts into a file, cut to 4096 bytes, is what `cat` prints of it, with a newline
at the end if there is none, after any commands that do not remove or write the file. -/
theorem cat_after_write {s : State} (hs : Reachable s) (env : Surroundings) (P T : CString)
    (hspace : space ∉ P.bytes) {p : List UInt8} (hp : (resolve env s P.bytes).map text = some p)
    (hok : (execute env (writeLine P.bytes T.bytes) s).1 = .console []) (inputs : List Input)
    (hinputs : Runs.Along exec (fun s i => ¬ Touches i.1 s p (parse i.2))
      (execute env (writeLine P.bytes T.bytes) s).2 inputs)
    (env' : Surroundings) (Q : CString)
    (hQ : (resolve env' (Runs.run exec (execute env (writeLine P.bytes T.bytes) s).2 inputs)
      Q.bytes).map text = some p) :
    (execute env' (catLine Q.bytes)
      (Runs.run exec (execute env (writeLine P.bytes T.bytes) s).2 inputs)).1 =
      .console (endLine (T.bytes.take 4096)) := by
  have hgood : Good (execute env (writeLine P.bytes T.bytes) s).2 :=
    hs.good.exec (env, writeLine P.bytes T.bytes)
  have hfile := hasFile_write hs.good P T hspace hp hok
  generalize (execute env (writeLine P.bytes T.bytes) s).2 = s₁ at hgood hfile hinputs hQ ⊢
  exact (hfile.run hgood hinputs).cat (hgood.run inputs) env' hQ

theorem cat_after_write_relative :
    (execute bare (catLine (ascii "f"))
      (Runs.run exec (execute bare (writeLine (ascii "/tmp/f") (ascii "hi"))
        (boot (init staticTable))).2
        [(bare, ascii "cd /tmp"), (bare, ascii "touch g")])).1 = .console (ascii "hi\n") := by
  have hs : Reachable (boot (init staticTable)) :=
    ⟨init staticTable, [], reachable_init staticTable, rfl⟩
  have hp : (resolve bare (boot (init staticTable)) (ascii "/tmp/f")).map text =
      some (ascii "/tmp/f") := by
    decide +kernel
  have hok : (execute bare (writeLine (ascii "/tmp/f") (ascii "hi"))
      (boot (init staticTable))).1 = .console [] := by
    decide +kernel
  have hQ : (resolve bare (Runs.run exec
      (execute bare (writeLine (ascii "/tmp/f") (ascii "hi")) (boot (init staticTable))).2
      [(bare, ascii "cd /tmp"), (bare, ascii "touch g")]) (ascii "f")).map text =
      some (ascii "/tmp/f") := by
    decide +kernel
  exact cat_after_write hs bare ⟨ascii "/tmp/f", by decide +kernel, by decide⟩
    ⟨ascii "hi", by decide +kernel, by decide⟩ (by decide) hp hok
    [(bare, ascii "cd /tmp"), (bare, ascii "touch g")] ⟨id, id, trivial⟩ bare
    ⟨ascii "f", by decide +kernel, by decide⟩ hQ

end Wnu.Shell
