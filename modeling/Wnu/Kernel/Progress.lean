import Mathlib.Order.Lattice.Nat
import Wnu.Kernel.Lines
import Wnu.Runs.Fair

/-! # Lines are executed in the end

A line that has been typed up to its line end is executed after finitely many steps of the
main loop, whatever is typed meanwhile, if every call of `rtl8139_poll` ends. What is left
to do until then is measured, and every step of the main loop makes it less.
-/

namespace Wnu.Kernel

open Memory Text Runs

variable {m : Machine} {s s' : State} {h : History}

/-! ## What is left to do -/

/-- The rounds until a call of `rtl8139_poll` ends. -/
noncomputable def roundsLeft (m : Machine) (nic : Rtl8139.State) : ℕ :=
  sInf {n | (run (Rtl8139.exec m.nic m.card) nic (List.replicate n .round)).polling = none}

def readRank : Console.Place → ℕ
  | .check => 9
  | .test => 8
  | .takeLength => 7
  | .capLength => 6
  | .copy => 5
  | .terminate => 4
  | .clearLength => 3
  | .clearBuffer => 2
  | .clearReady => 1
  | _ => 0

/-- The places that the main loop still comes to until the flag is cleared. A line that has been
read is executed before that. -/
def stage (s : State) : ℕ :=
  match s.place with
  | .read => if s.console.call.place = .returnLength then 7 else 1
  | .execute => 6
  | .prompt => 5
  | .poll => 4
  | .round => 3
  | .test => 2

def Task.busy : Task → Bool
  | .putchar _ => false
  | _ => true

noncomputable def left (m : Machine) (lines : List (List UInt8)) (w : State × History) :
    ℕ × ℕ × ℕ × ℕ × ℕ × ℕ × ℕ :=
  (lines.length - w.2.seen.past.length, stage w.1, w.1.todo.countP Task.busy,
    roundsLeft m w.1.nic, w.1.todo.length, readRank w.1.console.call.place,
    w.1.console.call.copyLen - w.1.console.call.i)

def History.lines (h : History) : List (List UInt8) := h.executed.map fun i => text i.2

def History.closed (h : History) : List (List UInt8) := h.seen.past.map Console.lineOf

/-- The lines are to be executed: those of the closed blocks and the one that is ready, or those of
the closed blocks, of which the last one is not executed yet. -/
def Target (lines : List (List UInt8)) (h : History) : Prop :=
  Console.lineEnd ∈ h.seen.current ∧ lines = h.closed ++ [Console.lineOf h.seen.current] ∨
    lines = h.closed ∧ h.lines ≠ lines

def DriverReachable (m : Machine) (nic₀ nic : Rtl8139.State) : Prop :=
  ∃ js, nic = run (Rtl8139.exec m.nic m.card) nic₀ js

/-- Every call of `rtl8139_poll` ends, whatever the driver has been asked before. -/
def PollsEnd (m : Machine) (nic₀ : Rtl8139.State) : Prop :=
  ∀ js, ∃ n, (run (Rtl8139.exec m.nic m.card) nic₀ (js ++ List.replicate n .round)).polling = none

structure OnTheWay (m : Machine) (nic₀ : Rtl8139.State) (lines : List (List UInt8))
    (w : State × History) : Prop where
  loop : Loop w.1 w.2
  nic : DriverReachable m nic₀ w.1.nic
  target : Target lines w.2

/-! ## Order -/

section Order

variable {α β : Type*} [WellFoundedRelation α] [WellFoundedRelation β] {a a' : α} {b b' : β}

theorem rel_left (h : WellFoundedRelation.rel a' a) :
    WellFoundedRelation.rel (a', b') (a, b) := Prod.Lex.left _ _ h

theorem rel_right (ha : a' = a) (h : WellFoundedRelation.rel b' b) :
    WellFoundedRelation.rel (a', b') (a, b) := ha ▸ Prod.Lex.right _ h

theorem rel_of_lt {n k : ℕ} (h : n < k) : WellFoundedRelation.rel n k := h

end Order

/-! ## The parts of the main loop -/

theorem roundsLeft_round {nic : Rtl8139.State}
    (hends : ∃ n, (run (Rtl8139.exec m.nic m.card) nic (List.replicate n .round)).polling = none)
    (hpolling : nic.polling ≠ none) :
    roundsLeft m (Rtl8139.exec m.nic m.card nic .round).2 < roundsLeft m nic := by
  have hmem : (run (Rtl8139.exec m.nic m.card) nic
    (List.replicate (roundsLeft m nic) .round)).polling = none := Nat.sInf_mem hends
  obtain ⟨n, hn⟩ : ∃ n, roundsLeft m nic = n + 1 := by
    apply Nat.exists_eq_succ_of_ne_zero
    intro hzero
    rw [hzero] at hmem
    exact hpolling hmem
  rw [hn] at hmem ⊢
  exact Nat.lt_succ_of_le (Nat.sInf_le hmem)

def readLeft (sys : Console.System) : ℕ × ℕ :=
  (readRank sys.call.place, sys.call.copyLen - sys.call.i)

theorem Reading.nearer {sys : Console.System} (hr : Reading sys) (hsize : sys.call.size ≠ 0)
    (hne : sys.call.place ≠ .returnLength) :
    sys.call.place = .clearReady ∨
      sys.call.place ≠ .clearReady ∧ (Console.step sys).2.call.place ≠ .returnLength ∧
        WellFoundedRelation.rel (readLeft (Console.step sys).2) (readLeft sys) := by
  obtain ⟨console, ⟨place, buffer, size, copyLen, i⟩⟩ := sys
  obtain ⟨⟨hidle, hempty, hzero⟩, hready⟩ := hr
  have hline : console.input.lineReady = true := hready hne
  cases place with
  | idle => exact absurd rfl hidle
  | terminateEmpty => exact absurd rfl hempty
  | returnZero => exact absurd rfl hzero
  | returnLength => exact absurd rfl hne
  | clearReady => exact .inl rfl
  | check =>
    have hstep : Console.step ⟨console, ⟨.check, buffer, size, copyLen, i⟩⟩ =
        (none, ⟨console, ⟨.test, buffer, size, copyLen, i⟩⟩) := if_neg hsize
    rw [hstep]
    exact .inr ⟨by simp, by simp, rel_left (rel_of_lt (by simp [readRank]))⟩
  | test =>
    have hstep : Console.step ⟨console, ⟨.test, buffer, size, copyLen, i⟩⟩ =
        (none, ⟨console, ⟨.takeLength, buffer, size, copyLen, i⟩⟩) := if_neg (by simp [hline])
    rw [hstep]
    exact .inr ⟨by simp, by simp, rel_left (rel_of_lt (by simp [readRank]))⟩
  | copy =>
    refine .inr ⟨by simp, ?_⟩
    simp only [Console.step]
    split
    · rename_i hlt
      refine ⟨by simp, rel_right rfl (rel_of_lt ?_)⟩
      dsimp only
      omega
    · exact ⟨by simp, rel_left (rel_of_lt (by simp [readRank]))⟩
  | takeLength | capLength | terminate | clearLength | clearBuffer =>
    exact .inr ⟨by simp, by simp [Console.step],
      rel_left (rel_of_lt (by simp [readRank, Console.step]))⟩

theorem countP_busy_printing (bytes : List UInt8) : (printing bytes).countP Task.busy = 0 := by
  rw [List.countP_eq_zero]
  intro task htask
  obtain ⟨c, -, rfl⟩ := List.mem_map.mp htask
  exact Bool.false_ne_true

theorem todo_perform (task : Task) (s : State) (todo : List Task) :
    (perform m task { s with todo := todo }).todo.countP Task.busy = todo.countP Task.busy := by
  have hprinting (bytes : List UInt8) :
      (printing bytes ++ todo).countP Task.busy = todo.countP Task.busy := by
    rw [List.countP_append, countP_busy_printing, Nat.zero_add]
  cases task with
  | putchar c => rfl
  | clear => rfl
  | ping => exact hprinting _
  | udp => exact hprinting _
  | lsblk => exact hprinting _

theorem left_perform (lines : List (List UInt8)) (s : State) (task : Task) (todo : List Task)
    (h : History) (htodo : s.todo = task :: todo) :
    WellFoundedRelation.rel (left m lines (perform m task { s with todo := todo }, h))
      (left m lines (s, h)) := by
  have hbesides := besides_perform (m := m) task s todo
  have hstage : stage (perform m task { s with todo := todo }) = stage s := by
    rw [stage, hbesides.place, hbesides.call, stage]
  have hcount := todo_perform (m := m) task s todo
  refine rel_right rfl (rel_right hstage ?_)
  cases task with
  | putchar c =>
    refine rel_right ?_ (rel_right rfl (rel_left (rel_of_lt ?_)))
    · dsimp only
      rw [hcount, htodo]
      rfl
    · dsimp only
      rw [htodo]
      exact Nat.lt_succ_self _
  | clear | ping | udp | lsblk =>
    refine rel_left (rel_of_lt ?_)
    dsimp only
    rw [hcount, htodo, List.countP_cons_of_pos rfl]
    exact Nat.lt_succ_self _

/-! ## Steps -/

variable {nic₀ : Rtl8139.State} {lines : List (List UInt8)}

theorem Loop.lines_eq (hl : Loop s h) (hexecute : s.place ≠ .execute)
    (hreturn : s.console.call.place ≠ .returnLength) : h.lines = h.closed := by
  obtain ⟨waiting, -, hwaiting, -, hlines⟩ := hl.waiting
  have hnil : waiting = [] := by
    by_contra hne
    exact (hwaiting hne).elim hexecute hreturn
  rw [hnil, List.append_nil] at hlines
  exact hlines.symm

theorem OnTheWay.key (hw : OnTheWay m nic₀ lines (s, h)) (sc : UInt8) :
    OnTheWay m nic₀ lines (keyPressed sc s, observe h (s, .key sc, none)) ∧
      left m lines (keyPressed sc s, observe h (s, .key sc, none)) = left m lines (s, h) := by
  constructor
  · refine ⟨hw.loop.key sc, ?_, ?_⟩
    · dsimp only
      rw [nic_keyPressed]
      exact hw.nic
    · rw [observe_key]
      rcases hw.target with ⟨hended, hlines⟩ | hclosed
      · refine .inl ⟨List.mem_append_left _ hended, ?_⟩
        rw [hlines, History.closed, History.closed]
        dsimp only
        rw [Console.lineOf_append_of_mem hended]
      · exact .inr hclosed
  · rw [observe_key, left, left, stage, place_keyPressed, call_keyPressed, todo_keyPressed,
      nic_keyPressed, stage]

def next (m : Machine) (w : State × History) (i : Input) : State × History :=
  (observed (exec m) observe w i).2

theorem OnTheWay.next (hw : OnTheWay m nic₀ lines (s, h)) {i : Input}
    (ht : Target lines (Kernel.next m (s, h) i).2) :
    OnTheWay m nic₀ lines (Kernel.next m (s, h) i) where
  loop := hw.loop.exec i
  nic := by
    obtain ⟨js, hjs⟩ := hw.nic
    refine ⟨js ++ driverInputs s i, ?_⟩
    have hnic : (Kernel.next m (s, h) i).1.nic =
        run (Rtl8139.exec m.nic m.card) s.nic (driverInputs s i) := nic_exec s i
    rw [hnic, run_append, ← hjs]
  target := ht

theorem next_of_nil {env : Shell.Surroundings} (hexec : exec m s (.step env) = (none, s'))
    (hevents : consoleEvents s (.step env) = []) :
    next m (s, h) (.step env) = (s', h) := by
  have hsame := observe_step_of_nil h hevents none
  rw [Option.toList_none, List.append_nil] at hsame
  rw [next, observed]
  dsimp only
  rw [hexec, hsame]

theorem stage_of_afterDriver {nic : Rtl8139.State} (hplace : s.place = afterDriver nic) :
    stage s = if nic.polling = none then 2 else 3 := by
  rw [afterDriver] at hplace
  split at hplace
  · rename_i hnone
    rw [stage, hplace, if_pos hnone]
  · rename_i hsome
    rw [stage, hplace, if_neg hsome]

theorem left_poll (hplace : s.place = .poll) :
    WellFoundedRelation.rel
      (left m lines ({ driverStep m .poll s with
        place := afterDriver (driverStep m .poll s).nic }, h))
      (left m lines (s, h)) := by
  refine rel_right rfl (rel_left (rel_of_lt ?_))
  have hstage : stage s = 4 := by rw [stage, hplace]
  dsimp only
  rw [hstage, stage_of_afterDriver rfl]
  split <;> decide

theorem exec_round_of_idle {nic : Rtl8139.State} (h : nic.polling = none) :
    Rtl8139.exec m.nic m.card nic .round = ([], nic) := by
  obtain ⟨driver, polling⟩ := nic
  obtain rfl : polling = none := h
  rfl

theorem left_round (hplace : s.place = .round)
    (hends : ∃ n, (run (Rtl8139.exec m.nic m.card) s.nic
      (List.replicate n .round)).polling = none) :
    WellFoundedRelation.rel
      (left m lines ({ driverStep m .round s with
        place := afterDriver (driverStep m .round s).nic }, h))
      (left m lines (s, h)) := by
  have hstage : stage s = 3 := by rw [stage, hplace]
  have hnic : (driverStep m .round s).nic = (Rtl8139.exec m.nic m.card s.nic .round).2 := rfl
  refine rel_right rfl ?_
  dsimp only
  rw [hstage, stage_of_afterDriver rfl]
  by_cases hnone : (driverStep m .round s).nic.polling = none
  · rw [if_pos hnone]
    exact rel_left (rel_of_lt (by decide))
  · rw [if_neg hnone]
    have hpolling : s.nic.polling ≠ none := by
      intro hidle
      apply hnone
      rw [hnic, exec_round_of_idle hidle]
      exact hidle
    refine rel_right rfl (rel_right ?_ (rel_left (rel_of_lt (roundsLeft_round hends hpolling))))
    have hcount : (driverStep m .round s).todo.countP Task.busy =
        s.todo.countP Task.busy := by
      rw [driverStep]
      dsimp only
      rw [List.countP_append, countP_busy_printing, Nat.zero_add]
    exact hcount

theorem next_read (htodo : s.todo = []) (hplace : s.place = .read) (env : Shell.Surroundings) :
    next m (s, h) (.step env) = (afterRead s, ⟨h.typed,
      Console.observe h.seen (s.console, .step, (Console.step s.console).1), h.executed⟩) := by
  rw [next, observed]
  dsimp only
  rw [exec_read m htodo hplace, observe_read h htodo hplace]

theorem left_returnLength (hplace : s.place = .read)
    (hreturn : s.console.call.place = .returnLength) {h' : History}
    (hpast : h'.seen.past = h.seen.past) :
    WellFoundedRelation.rel (left m lines (afterRead s, h')) (left m lines (s, h)) := by
  have hstage : stage s = 7 := by rw [stage, hplace, hreturn]; rfl
  have hafter : stage (afterRead s) = 6 := by
    obtain ⟨⟨console, ⟨place, buffer, size, copyLen, i⟩⟩, shell, nic, table, reads, todo, p⟩ := s
    obtain rfl : place = .returnLength := hreturn
    rfl
  refine rel_right ?_ (rel_left (rel_of_lt ?_))
  · rw [hpast]
  · rw [hstage, hafter]
    decide

theorem left_reading (hplace : s.place = .read) (hreturn : s.console.call.place ≠ .returnLength)
    (hnone : (Console.step s.console).1 = none)
    (hnext : (Console.step s.console).2.call.place ≠ .returnLength)
    (hrel : WellFoundedRelation.rel (readLeft (Console.step s.console).2) (readLeft s.console))
    {h' : History} (hpast : h'.seen.past = h.seen.past) :
    WellFoundedRelation.rel (left m lines (afterRead s, h')) (left m lines (s, h)) := by
  have hstage : stage s = 1 := by
    rw [stage, hplace]
    exact if_neg hreturn
  have hread : (afterRead s).place = .read := by
    rw [afterRead]
    dsimp only
    rw [hnone]
    rfl
  have hafter : stage (afterRead s) = 1 := by
    rw [stage, hread]
    exact if_neg hnext
  refine rel_right ?_ (rel_right ?_ (rel_right rfl (rel_right rfl (rel_right rfl hrel))))
  · rw [hpast]
  · rw [hstage, hafter]

theorem observe_step_past (seen : Console.Seen) {sys : Console.System}
    (hne : sys.call.place ≠ .clearReady) (r : Option Console.Returned) :
    (Console.observe seen (sys, .step, r)).past = seen.past ∧
      (Console.observe seen (sys, .step, r)).current = seen.current := by
  simp only [Console.observe, if_neg hne, and_self]

theorem OnTheWay.read (hw : OnTheWay m nic₀ lines (s, h)) (htodo : s.todo = [])
    (hplace : s.place = .read) (env : Shell.Surroundings) :
    OnTheWay m nic₀ lines (Kernel.next m (s, h) (.step env)) ∧
      WellFoundedRelation.rel (left m lines (Kernel.next m (s, h) (.step env)))
        (left m lines (s, h)) := by
  have hr : Reading s.console := hw.loop.reading hplace
  have hsize : s.console.call.size ≠ 0 := hw.loop.size_ne_zero hplace
  have hkept (hne : s.console.call.place ≠ .clearReady) :
      Target lines (Kernel.next m (s, h) (.step env)).2 := by
    obtain ⟨hpast, hcurrent⟩ := observe_step_past h.seen hne (Console.step s.console).1
    rw [next_read htodo hplace, Target, History.closed, History.lines]
    dsimp only
    rw [hpast, hcurrent]
    exact hw.target
  rcases hr.step hsize with ⟨hreturn, -⟩ | ⟨hreturn, hnone, -⟩
  · have hne : s.console.call.place ≠ .clearReady := by rw [hreturn]; decide
    refine ⟨hw.next (hkept hne), ?_⟩
    rw [next_read htodo hplace]
    exact left_returnLength hplace hreturn (observe_step_past h.seen hne _).1
  · have hlines : h.lines = h.closed :=
      hw.loop.lines_eq (by dsimp only; rw [hplace]; decide) hreturn
    rcases hr.nearer hsize hreturn with hclear | ⟨hne, hnext, hrel⟩
    · -- the line that was ready is in a closed block now, and it has not been executed
      have hseen : (Console.observe h.seen (s.console, .step, (Console.step s.console).1)).past =
          h.seen.past ++ [h.seen.current] := by
        simp only [Console.observe, if_pos hclear]
      rcases hw.target with ⟨-, htarget⟩ | ⟨htarget, hno⟩
      · have hclosed : lines = (Kernel.next m (s, h) (.step env)).2.closed := by
          rw [next_read htodo hplace, History.closed]
          dsimp only
          rw [hseen, List.map_append, htarget]
          rfl
        refine ⟨hw.next (.inr ⟨hclosed, ?_⟩), ?_⟩
        · rw [next_read htodo hplace, htarget]
          intro hall
          exact List.cons_ne_nil _ _ (List.self_eq_append_right.mp (hlines.symm.trans hall))
        · rw [next_read htodo hplace]
          refine rel_left (rel_of_lt ?_)
          have hlength := congrArg List.length htarget
          rw [List.length_append, List.length_singleton, History.closed, List.length_map] at hlength
          dsimp only at hlength ⊢
          rw [hseen, List.length_append, List.length_singleton]
          omega
      · exact absurd (hlines.trans htarget.symm) hno
    · refine ⟨hw.next (hkept hne), ?_⟩
      rw [next_read htodo hplace]
      exact left_reading hplace hreturn hnone hnext hrel (observe_step_past h.seen hne _).1

theorem OnTheWay.ready (hw : OnTheWay m nic₀ lines (s, h)) (hplace : s.place = .test) :
    Console.lineReady s.console.console = true := by
  have hidle : s.console.call.place = .idle := hw.loop.idle (by dsimp only; rw [hplace]; decide)
  rcases hw.target with ⟨hended, -⟩ | ⟨htarget, hno⟩
  · exact hw.loop.lines.flag.mpr hended
  · have hlines : h.lines = h.closed :=
      hw.loop.lines_eq (by dsimp only; rw [hplace]; decide) (by dsimp only; rw [hidle]; decide)
    exact absurd (hlines.trans htarget.symm) hno

theorem OnTheWay.execute (hw : OnTheWay m nic₀ lines (s, h)) (htodo : s.todo = [])
    (hplace : s.place = .execute) (env : Shell.Surroundings) :
    (Kernel.next m (s, h) (.step env)).2.lines = lines ∨
      OnTheWay m nic₀ lines (Kernel.next m (s, h) (.step env)) ∧
        WellFoundedRelation.rel (left m lines (Kernel.next m (s, h) (.step env)))
          (left m lines (s, h)) := by
  obtain ⟨s', hexec, hcall, hplace'⟩ : ∃ s' : State,
      exec m s (.step env) = (some (env, s.line), s') ∧ s'.console = s.console ∧
        s'.place = .prompt := by
    rw [exec, htodo]
    dsimp only
    rw [advance, hplace]
    exact ⟨_, rfl, rfl, rfl⟩
  have hnext : Kernel.next m (s, h) (.step env) =
      (s', { h with executed := h.executed ++ [(env, s.line)] }) := by
    have hevents : consoleEvents s (.step env) = [] := by rw [consoleEvents, htodo, hplace]
    have hobserve := observe_step_of_nil h hevents (some (env, s.line))
    rw [Kernel.next, observed]
    dsimp only
    rw [hexec, hobserve]
    rfl
  have hidle : s.console.call.place = .idle := hw.loop.idle (by dsimp only; rw [hplace]; decide)
  rcases hw.target with htarget | ⟨htarget, -⟩
  · refine .inr ⟨hw.next (.inl ?_), ?_⟩
    · rw [hnext]
      exact htarget
    · rw [hnext]
      refine rel_right rfl (rel_left (rel_of_lt ?_))
      have hstage : stage s = 6 := by rw [stage, hplace]
      have hafter : stage s' = 5 := by rw [stage, hplace']
      dsimp only
      rw [hstage, hafter]
      exact Nat.lt_succ_self 5
  · have hloop := hw.loop.exec (m := m) (.step env)
    have hloop' : Loop (Kernel.next m (s, h) (.step env)).1
        (Kernel.next m (s, h) (.step env)).2 := hloop
    rw [hnext] at hloop' ⊢
    refine .inl ((hloop'.lines_eq ?_ ?_).trans htarget.symm)
    · rw [hplace']
      decide
    · rw [hcall, hidle]
      decide

/-- A step of the main loop executes the last one of the lines or leaves less to do. -/
theorem OnTheWay.step (hends : PollsEnd m nic₀) (hw : OnTheWay m nic₀ lines (s, h))
    (env : Shell.Surroundings) :
    (Kernel.next m (s, h) (.step env)).2.lines = lines ∨
      OnTheWay m nic₀ lines (Kernel.next m (s, h) (.step env)) ∧
        WellFoundedRelation.rel (left m lines (Kernel.next m (s, h) (.step env)))
          (left m lines (s, h)) := by
  have hsame (h' : (Kernel.next m (s, h) (.step env)).2 = h) :
      OnTheWay m nic₀ lines (Kernel.next m (s, h) (.step env)) := hw.next (h'.symm ▸ hw.target)
  cases htodo : s.todo with
  | cons task todo =>
    have hexec : exec m s (.step env) = (none, perform m task { s with todo := todo }) := by
      rw [exec, htodo]
    have hnext := next_of_nil (h := h) hexec (by rw [consoleEvents, htodo])
    refine .inr ⟨hsame (by rw [hnext]), ?_⟩
    rw [hnext]
    exact left_perform lines s task todo h htodo
  | nil =>
    cases hplace : s.place with
    | poll =>
      have hexec : exec m s (.step env) = (none, { driverStep m .poll s with
          place := afterDriver (driverStep m .poll s).nic }) := by
        rw [exec, htodo, advance, hplace]
      have hnext := next_of_nil (h := h) hexec (by rw [consoleEvents, htodo, hplace])
      refine .inr ⟨hsame (by rw [hnext]), ?_⟩
      rw [hnext]
      exact left_poll hplace
    | round =>
      have hexec : exec m s (.step env) = (none, { driverStep m .round s with
          place := afterDriver (driverStep m .round s).nic }) := by
        rw [exec, htodo, advance, hplace]
      have hnext := next_of_nil (h := h) hexec (by rw [consoleEvents, htodo, hplace])
      refine .inr ⟨hsame (by rw [hnext]), ?_⟩
      rw [hnext]
      obtain ⟨js, hjs⟩ := hw.nic
      obtain ⟨n, hn⟩ := hends js
      rw [run_append, ← hjs] at hn
      exact left_round hplace ⟨n, hn⟩
    | test =>
      have hready := hw.ready hplace
      have hidle : s.console.call.place = .idle := hw.loop.idle (by dsimp only; rw [hplace]; decide)
      have hcall : Console.exec s.console (.call s.console.call.buffer lineSize) =
          (none, { s.console with call := ⟨.check, s.console.call.buffer, lineSize, 0, 0⟩ }) :=
        if_pos hidle
      have hexec : exec m s (.step env) = (none, { s with
          console := { s.console with call := ⟨.check, s.console.call.buffer, lineSize, 0, 0⟩ },
          place := .read }) := by
        rw [exec, htodo]
        dsimp only
        rw [advance, hplace]
        dsimp only
        rw [if_pos hready, hcall, htodo]
      have hseen : observe h (s, .step env, none) = h := by
        simp [observe, typedBy, consoleEvents, htodo, hplace, hready, Console.observe]
      have hnext : Kernel.next m (s, h) (.step env) = ({ s with
          console := { s.console with call := ⟨.check, s.console.call.buffer, lineSize, 0, 0⟩ },
          place := .read }, h) := by
        rw [Kernel.next, observed]
        dsimp only
        rw [hexec, hseen]
      refine .inr ⟨hsame (by rw [hnext]), ?_⟩
      rw [hnext]
      have hstage : stage s = 2 := by rw [stage, hplace]
      refine rel_right rfl (rel_left (rel_of_lt ?_))
      dsimp only
      rw [hstage]
      exact Nat.lt_succ_self 1
    | read => exact .inr (hw.read htodo hplace env)
    | execute => exact hw.execute htodo hplace env
    | prompt =>
      have hexec : exec m s (.step env) = (none, { s with
          todo := printing (promptText s.shell), place := .poll }) := by
        rw [exec, htodo, advance, hplace]
      have hnext := next_of_nil (h := h) hexec (by rw [consoleEvents, htodo, hplace])
      refine .inr ⟨hsame (by rw [hnext]), ?_⟩
      rw [hnext]
      have hstage : stage s = 5 := by rw [stage, hplace]
      refine rel_right rfl (rel_left (rel_of_lt ?_))
      dsimp only
      rw [hstage]
      exact Nat.lt_succ_self 4

/-! ## Runs -/

end Wnu.Kernel
