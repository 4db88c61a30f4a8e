import Wnu.Shell.Effects

/-! # The current directory

`cd` checks that its path is a directory. After that only the command that removes this
directory makes the current directory one that does not exist: `rm` does not look at it.
-/

namespace Wnu.Shell

open Text Memory Vfs Fat32

variable {env : Surroundings} {s : State}

/-- The current directory is a directory, which `ls` lists and `tree` walks. -/
structure WorksIn (s : State) : Prop where
  dir : isDir s.vfs s.dir = true
  ls : ∀ env, (execute env (ascii "ls") s).1 =
    .console ((listed s.vfs s.dir).flatMap fun i => entryLine (s.vfs.nodes i))
  tree : ∀ env, (execute env (ascii "tree") s).1 =
    .console (treeWalk s.vfs (maxName + 1) s.dir 0)

theorem worksIn_iff (h : Good s) : WorksIn s ↔ isDir s.vfs s.dir = true := by
  constructor
  · exact WorksIn.dir
  · intro hdir
    obtain ⟨node, hn, -⟩ := (isDir_iff h.inv).mp hdir
    obtain ⟨i, hi, rfl⟩ := find_of_node_eq_some hn
    have hvalid : validPath s.dir = true :=
      (validPath_iff _).mpr ⟨(h.inv.node _ _ hn).1, length_lt_of_node h.inv hn⟩
    have hwalk : Vfs.tree s.vfs s.dir = treeWalk s.vfs (maxName + 1) s.dir 0 := by
      simp [Vfs.tree, hvalid, exists', hi]
    refine ⟨hdir, fun env => ?_, fun env => ?_⟩
    · exact congrArg Output.console (listDir_of_isDir h.inv hdir)
    · exact congrArg Output.console hwalk

/-- The current directory goes on to be a directory unless the command removes it. -/
theorem worksIn_exec_iff (s : State) (i : Input) (h : Good s) (hw : WorksIn s) :
    WorksIn (exec s i).2 ↔ ¬ Removes i.1 s (text s.dir) (parse i.2) := by
  obtain ⟨env, line⟩ := i
  rw [worksIn_iff (h.exec _)]
  obtain ⟨node, hn, htype⟩ := (isDir_iff h.inv).mp hw.dir
  have hstep : Step env s (parse line) (exec s (env, line)).2 := run_step _ _ _ _
  have hgood := h.step hstep
  constructor
  · intro hdir hrem
    have hexec : exec s (env, line) = (parse line).run env line s := rfl
    cases hc : parse line with
    | rm input =>
      rw [hc] at hrem
      obtain ⟨path, hpath, htext, hdel⟩ := hrem
      have he : (exec s (env, line)).2 = { s with vfs := (delete s.vfs path).2 } := by
        rw [hexec, hc]
        simp only [Command.run, rm, changePath, hpath]
      rw [he] at hdir hgood
      obtain ⟨node', hn', -⟩ := (isDir_iff hgood.inv).mp hdir
      rcases delete_cases s.vfs path with ⟨hno, -⟩ | ⟨-, j, hj, hrel⟩
      · exact hno (htext ▸ hdel)
      · obtain ⟨hu, hname⟩ := h.inv.find_eq_some_iff.mp hj
        rw [hrel] at hn'
        have hgone := node_release h.inv.distinct hu (text s.dir)
        rw [hname, htext, if_pos rfl] at hgone
        exact absurd (hgone.symm.trans hn') (by simp)
    | _ =>
      rw [hc] at hrem
      exact hrem
  · intro hno
    rw [isDir_iff hgood.inv]
    generalize (exec s (env, line)).2 = s' at hstep
    obtain ⟨node', hn', htype'⟩ := type_step h hstep hno hn
    generalize parse line = c at hstep
    cases hstep with
    | cd _ hdir =>
      rw [State.dir, text_window_stringCopy _ _ (length_lt_of_isDir h.inv hdir)]
      exact (isDir_iff h.inv).mp hdir
    | _ => exact ⟨node', hn', htype'.trans htype⟩

/-- The current directory is a directory in every state of a run exactly if no step of the run
removes the current directory of its state. -/
theorem run_worksIn_iff {t : Table} (h : Vfs.Reachable t) (inputs : List Input) :
    (∀ is, is <+: inputs → WorksIn (Runs.run exec (boot t) is)) ↔
      Runs.Along exec (fun s i => ¬ Removes i.1 s (text s.dir) (parse i.2)) (boot t) inputs := by
  have hroot : isDir (boot t).vfs (boot t).dir = true := by
    rw [vfs_boot, isDir_iff h.inv, text_dir_boot]
    exact h.inv.root
  exact Runs.along_iff_forall_prefix (fun _ i h => Good.exec h i) worksIn_exec_iff (good_boot h)
    ((worksIn_iff (good_boot h)).mpr hroot) inputs

theorem run_worksIn_home :
    WorksIn (Runs.run exec (boot (init staticTable))
      [(bare, ascii "cd /home"), (bare, ascii "touch a")]) :=
  (run_worksIn_iff (reachable_init staticTable)
    [(bare, ascii "cd /home"), (bare, ascii "touch a")]).mpr ⟨id, id, trivial⟩ _ List.prefix_rfl

/-- After `cd /home` and `rm /home`, `ls` does not find the current directory. -/
theorem not_worksIn_removed :
    (¬ ∀ (t : Table) (inputs : List Input), Vfs.Reachable t →
      WorksIn (Runs.run exec (boot t) inputs)) ∧
    (execute bare (ascii "ls") (Runs.run exec (boot (init staticTable))
      [(bare, ascii "cd /home"), (bare, ascii "rm /home")])).1 =
      .console (ascii "not found\n") := by
  constructor
  · intro hall
    have hdir := (hall (init staticTable) [(bare, ascii "cd /home"), (bare, ascii "rm /home")]
      (reachable_init staticTable)).dir
    revert hdir
    decide +kernel
  · decide +kernel

end Wnu.Shell
