import Wnu.Fat32.Confinement
import Wnu.Shell.Commands
import Wnu.Vfs.Contents

/-! # What a command changes

A command leaves everything as it was, changes the current directory, or acts on the
file system at one path or by a mount. So every command keeps the invariant of the file
system, keeps a node that it does not remove, and keeps the contents of a file that it
does not remove or write.
-/

namespace Wnu.Shell

open Text Memory Vfs Fat32

variable {env : Surroundings} {line p : List UInt8} {s s' : State} {c : Command}

inductive Step (env : Surroundings) (s : State) : Command → State → Prop
  | stay (c : Command) : Step env s c s
  | cd {input path : List UInt8} (h : resolve env s input = some path)
      (hdir : isDir s.vfs path = true) :
      Step env s (.cd input) { s with currentDir := stringCopy s.currentDir path pathMax }
  | touch {input path : List UInt8} (h : resolve env s input = some path) :
      Step env s (.touch input) { s with vfs := (createFile s.vfs path).2 }
  | mkdir {input path : List UInt8} (h : resolve env s input = some path) :
      Step env s (.mkdir input) { s with vfs := (createDir s.vfs path).2 }
  | rm {input path : List UInt8} (h : resolve env s input = some path) :
      Step env s (.rm input) { s with vfs := (delete s.vfs path).2 }
  | mount (args dev mp : List UInt8) :
      Step env s (.mount args)
        { s with vfs := (fat32Mount (env.device dev) mp (.start s.vfs env.buffers)).2.vfs }
  | write {args path : List UInt8} (str : List UInt8)
      (h : resolve env s (args.take (tokenLength args)) = some path) :
      Step env s (.write args) { s with vfs := (writePath str s.vfs path).2 }

theorem run_step (env : Surroundings) (line : List UInt8) (c : Command) (s : State) :
    Step env s c (c.run env line s).2 := by
  cases c with
  | cd input =>
    simp only [Command.run, cd]
    cases h : resolve env s input with
    | none => exact .stay _
    | some path =>
      simp only
      split
      · exact .stay _
      · split
        · exact .stay _
        · rename_i hdir
          exact .cd h (by simpa using hdir)
  | touch input =>
    simp only [Command.run, touch, changePath]
    cases h : resolve env s input with
    | none => exact .stay _
    | some path => exact .touch h
  | mkdir input =>
    simp only [Command.run, mkdir, changePath]
    cases h : resolve env s input with
    | none => exact .stay _
    | some path => exact .mkdir h
  | rm input =>
    simp only [Command.run, rm, changePath]
    cases h : resolve env s input with
    | none => exact .stay _
    | some path => exact .rm h
  | mount args =>
    simp only [Command.run, mount]
    split
    · exact .stay _
    · split
      · exact .stay _
      · split
        · exact .stay _
        · exact .mount args _ _
  | write args =>
    simp only [Command.run, write]
    split
    · exact .stay _
    · split
      · exact .stay _
      · simp only [changePath]
        cases h : resolve env s (args.take (tokenLength args)) with
        | none => exact .stay _
        | some path => exact .write _ h
  | _ => exact .stay _

/-! ## The invariant -/

structure Good (s : State) : Prop where
  inv : Inv s.vfs
  length_lt : (text s.dir).length < pathMax

theorem inv_writePath {t : Table} (h : Inv t) (str path : List UInt8) :
    Inv (writePath str t path).2 := by
  rw [writePath]
  split
  · exact (h.exec (.createFile path)).exec (.writeFile path _ _)
  · exact h.exec (.writeFile path _ _)

theorem length_lt_of_isDir {t : Table} (h : Inv t) {path : List UInt8}
    (hdir : isDir t path = true) : (text path).length < pathMax := by
  obtain ⟨node, hn, -⟩ := (isDir_iff h).mp hdir
  exact length_lt_of_node h hn

theorem Good.step (h : Good s) (hs : Step env s c s') : Good s' := by
  cases hs with
  | stay => exact h
  | cd _ hdir =>
    refine ⟨h.inv, ?_⟩
    rw [State.dir, text_window_stringCopy _ _ (length_lt_of_isDir h.inv hdir)]
    exact length_lt_of_isDir h.inv hdir
  | touch => exact ⟨h.inv.exec (.createFile _), h.length_lt⟩
  | mkdir => exact ⟨h.inv.exec (.createDir _), h.length_lt⟩
  | rm => exact ⟨h.inv.exec (.delete _), h.length_lt⟩
  | mount _ dev mp => exact ⟨(inv_confined_fat32Mount (env.device dev) mp h.inv).1, h.length_lt⟩
  | write str _ => exact ⟨inv_writePath h.inv str _, h.length_lt⟩

theorem Good.exec (h : Good s) (i : Input) : Good (exec s i).2 := h.step (run_step _ _ _ _)

theorem Good.run (h : Good s) (inputs : List Input) : Good (Runs.run Shell.exec s inputs) :=
  Runs.run_invariant (P := Good) (fun _ i h => h.exec i) h inputs

theorem good_boot {t : Table} (h : Vfs.Reachable t) : Good (boot t) := by
  refine ⟨h.inv, ?_⟩
  rw [text_dir_boot]
  decide

theorem Reachable.good (h : Reachable s) : Good s := by
  obtain ⟨t, inputs, ht, rfl⟩ := h
  exact (good_boot ht).run inputs

/-! ## What a command keeps -/

theorem Good.resolve_eq (h : Good s) (env : Surroundings) (input : List UInt8) :
    (resolve env s input).map text =
      if text input ≠ [] ∧ (pathIn (text s.dir) (text input)).length < pathMax then
        some (pathIn (text s.dir) (text input))
      else none := by
  rw [resolve]
  rcases resolvePath_cases h.length_lt input env.stack with ⟨hno, hfail⟩ | ⟨hne, hlt, hok, hpath⟩
  · simp only [hfail, if_neg hno]
    rfl
  · simp only [hok, if_pos (And.intro hne hlt), if_true, Option.map_some, hpath]

theorem node_fat32Mount {m : Mount} (h : Inv m.vfs) (dev : Device) (mp : List UInt8) {node : Node}
    (hn : m.vfs.node p = some node) : (fat32Mount dev mp m).2.vfs.node p = some node := by
  obtain ⟨hinv, hconf⟩ := inv_confined_fat32Mount dev mp h
  exact hconf.node h hinv hn

theorem type_writePath {t : Table} (h : Inv t) {node : Node} (hn : t.node p = some node)
    (str path : List UInt8) :
    ∃ node', (writePath str t path).2.node p = some node' ∧ node'.type = node.type := by
  rw [writePath]
  split
  · obtain ⟨node', hn', ht'⟩ := type_exec h hn (.createFile path) fun _ he => nomatch he
    obtain ⟨node'', hn'', ht''⟩ := type_exec (h.exec (.createFile path)) hn'
      (.writeFile path (some (ofList str 0)) (UInt64.ofNat (stringLen str))) fun _ he => nomatch he
    exact ⟨node'', hn'', ht''.trans ht'⟩
  · exact type_exec h hn (.writeFile path _ _) fun _ he => nomatch he

/-- The command removes the node at `p`. -/
def Removes (env : Surroundings) (s : State) (p : List UInt8) : Command → Prop
  | .rm input => ∃ path, resolve env s input = some path ∧ text path = p ∧ Deletable s.vfs p
  | _ => False

theorem type_step (h : Good s) (hs : Step env s c s') (hc : ¬ Removes env s p c) {node : Node}
    (hn : s.vfs.node p = some node) :
    ∃ node', s'.vfs.node p = some node' ∧ node'.type = node.type := by
  cases hs with
  | stay => exact ⟨node, hn, rfl⟩
  | cd => exact ⟨node, hn, rfl⟩
  | touch => exact type_exec h.inv hn (.createFile _) fun _ he => nomatch he
  | mkdir => exact type_exec h.inv hn (.createDir _) fun _ he => nomatch he
  | @rm input path hpath =>
    refine type_exec h.inv hn (.delete path) ?_
    rintro _ ⟨⟩ hdel rfl
    exact hc ⟨path, hpath, rfl, hdel⟩
  | mount _ dev mp => exact ⟨node, node_fat32Mount h.inv _ _ hn, rfl⟩
  | write str _ => exact type_writePath h.inv hn str _

/-- The command removes or writes the file at `p`. -/
def Touches (env : Surroundings) (s : State) (p : List UInt8) : Command → Prop
  | .rm input => (resolve env s input).map text = some p
  | .write args => (resolve env s (args.take (tokenLength args))).map text = some p
  | _ => False

def HasFile (t : Table) (p contents : List UInt8) : Prop :=
  ∃ node, t.node p = some node ∧ node.type = .file ∧ node.contents = contents

theorem HasFile.exec {t : Table} {contents : List UInt8} (hf : HasFile t p contents) (h : Inv t)
    (op : Op) (hdel : ∀ q, op = .delete q → text q ≠ p)
    (happly : applyTo p contents op = contents) :
    HasFile (Vfs.exec t op).2 p contents := by
  obtain ⟨node, hn, ht, rfl⟩ := hf
  obtain ⟨node', hn', ht', hc'⟩ := node_exec h hn ht op fun _ => hdel
  refine ⟨node', hn', ht', hc'.trans ?_⟩
  split
  · exact happly
  · rfl

theorem HasFile.writePath {t : Table} {contents : List UInt8} (hf : HasFile t p contents)
    (h : Inv t) (str : List UInt8) {path : List UInt8} (hne : text path ≠ p) :
    HasFile (writePath str t path).2 p contents := by
  have hwrite {t : Table} (hf : HasFile t p contents) (h : Inv t) :=
    hf.exec h (.writeFile path (some (ofList str 0)) (UInt64.ofNat (stringLen str)))
      (fun _ he => nomatch he) (if_neg hne)
  rw [Shell.writePath]
  split
  · exact hwrite (hf.exec h (.createFile path) (fun _ he => nomatch he) rfl)
      (h.exec (.createFile path))
  · exact hwrite hf h

theorem HasFile.step {contents : List UInt8} (hf : HasFile s.vfs p contents) (h : Good s)
    (hs : Step env s c s') (hc : ¬ Touches env s p c) : HasFile s'.vfs p contents := by
  cases hs with
  | stay => exact hf
  | cd => exact hf
  | touch => exact hf.exec h.inv (.createFile _) (fun _ he => nomatch he) rfl
  | mkdir => exact hf.exec h.inv (.createDir _) (fun _ he => nomatch he) rfl
  | @rm input path hpath =>
    refine hf.exec h.inv (.delete path) ?_ rfl
    rintro _ ⟨⟩ rfl
    exact hc (by rw [Touches, hpath]; rfl)
  | mount _ dev mp =>
    obtain ⟨node, hn, ht, hcont⟩ := hf
    exact ⟨node, node_fat32Mount h.inv _ _ hn, ht, hcont⟩
  | @write args path str hpath =>
    refine hf.writePath h.inv str ?_
    rintro rfl
    exact hc (by rw [Touches, hpath]; rfl)

end Wnu.Shell
