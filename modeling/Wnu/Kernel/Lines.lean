import Wnu.Kernel.Boot

/-! # Lines are executed

What is typed falls into blocks, each with a line end in it. The kernel executes the line
of each block once, in the order in which they are typed, wherever the keys fall between
the steps of the main loop.
-/

namespace Wnu.Kernel

open Memory Text Runs

/-- What an observer has seen: the characters typed, what the reader of the console has done with
them, and the lines executed. -/
structure History where
  typed : List UInt8
  seen : Console.Seen
  executed : List Shell.Input

def observe (h : History) : State × Input × Option Shell.Input → History
  | (s, i, out) =>
    { typed := h.typed ++ typedBy i
      seen := (trace Console.exec s.console (consoleEvents s i)).foldl Console.observe h.seen
      executed := h.executed ++ out.toList }

def lineText (buffer : Mem UInt8) : List UInt8 := text (window buffer lineSize)

/-- A read that has found a line and has not cleared the flag yet, or is about to return. -/
structure Reading (sys : Console.System) : Prop where
  place : sys.call.place ≠ .idle ∧ sys.call.place ≠ .terminateEmpty ∧
    sys.call.place ≠ .returnZero
  ready : sys.call.place ≠ .returnLength → sys.console.input.lineReady = true

structure Loop (s : State) (h : History) : Prop where
  lines : Console.LineInv s.console h.seen
  typed : h.typed = h.seen.past.flatten ++ h.seen.current
  nonzero : 0 ∉ h.typed
  idle : s.place ≠ .read → s.console.call.place = .idle
  reading : s.place = .read → Reading s.console
  executed : h.seen.returned.map (fun r => lineText r.buffer) =
    h.executed.map (fun i => text i.2) ++
      if s.place = .execute then [lineText s.console.call.buffer] else []

variable {m : Machine} {s s' : State} {h : History} {sys : Console.System} {seen : Console.Seen}

/-! ## The reader -/

theorem lineInv_congr (hi : Console.LineInv sys seen) {sys' : Console.System}
    (hdisplay : sys'.console.display = sys.console.display)
    (hinput : sys'.console.input = sys.console.input) (hcall : sys'.call = sys.call) :
    Console.LineInv sys' seen where
  ready := by rw [hdisplay]; exact hi.ready
  room := by rw [hcall]; exact hi.room
  flag := by rw [hinput]; exact hi.flag
  typed := by rw [hcall, hinput]; exact hi.typed
  cleared := by rw [hcall, hinput]; exact hi.cleared
  progress := by rw [hcall]; exact hi.progress
  returning := by rw [Console.Returning, hcall]; exact hi.returning

theorem Reading.step (hr : Reading sys) (hsize : sys.call.size ≠ 0) :
    (sys.call.place = .returnLength ∧ Console.step sys =
      (some ⟨true, sys.call.buffer, sys.call.copyLen⟩, { sys with call.place := .idle })) ∨
    (sys.call.place ≠ .returnLength ∧ (Console.step sys).1 = none ∧
      Reading (Console.step sys).2) := by
  obtain ⟨console, ⟨place, buffer, size, copyLen, i⟩⟩ := sys
  obtain ⟨⟨hidle, hempty, hzero⟩, hready⟩ := hr
  cases place with
  | idle => exact absurd rfl hidle
  | terminateEmpty => exact absurd rfl hempty
  | returnZero => exact absurd rfl hzero
  | returnLength => exact .inl ⟨rfl, rfl⟩
  | check =>
    have hstep : Console.step ⟨console, ⟨.check, buffer, size, copyLen, i⟩⟩ =
        (none, ⟨console, ⟨.test, buffer, size, copyLen, i⟩⟩) := if_neg hsize
    rw [hstep]
    exact .inr ⟨by simp, rfl, by simp, fun _ => hready (by simp)⟩
  | test =>
    have hline : console.input.lineReady = true := hready (by simp)
    have hstep : Console.step ⟨console, ⟨.test, buffer, size, copyLen, i⟩⟩ =
        (none, ⟨console, ⟨.takeLength, buffer, size, copyLen, i⟩⟩) := if_neg (by simp [hline])
    rw [hstep]
    exact .inr ⟨by simp, rfl, by simp, fun _ => hline⟩
  | copy =>
    have hline : console.input.lineReady = true := hready (by simp)
    refine .inr ⟨by simp, ?_⟩
    simp only [Console.step]
    split
    · exact ⟨rfl, by simp, fun _ => hline⟩
    · exact ⟨rfl, by simp, fun _ => hline⟩
  | clearReady => exact .inr ⟨by simp, rfl, by simp [Console.step], fun hne => absurd rfl hne⟩
  | takeLength | capLength | terminate | clearLength | clearBuffer =>
    exact .inr ⟨by simp, rfl, by simp [Console.step], fun _ => hready (by simp)⟩

theorem Reading.push (hr : Reading sys) (c : UInt8) :
    Reading { sys with console := Console.pushInput sys.console c } where
  place := hr.place
  ready hne := by
    have hline := hr.ready hne
    dsimp only
    rw [Console.pushInput_of_lineReady hline]
    exact hline

/-- Clearing the flag closes a block of what has been typed. -/
theorem flatten_observe_step (sys : Console.System) (r : Option Console.Returned) :
    (Console.observe seen (sys, .step, r)).past.flatten ++
        (Console.observe seen (sys, .step, r)).current =
      seen.past.flatten ++ seen.current := by
  simp only [Console.observe]
  split
  · rw [List.flatten_append, List.flatten_singleton, List.append_nil]
  · rfl

theorem returned_observe_step (sys : Console.System) (r : Option Console.Returned) :
    (Console.observe seen (sys, .step, r)).returned =
      seen.returned ++ (r.filter (·.found)).toList := rfl

/-! ## The main loop -/

theorem observe_step_of_nil {env : Shell.Surroundings} (h : History)
    (hevents : consoleEvents s (.step env) = []) (out : Option Shell.Input) :
    observe h (s, .step env, out) = { h with executed := h.executed ++ out.toList } := by
  simp only [observe, typedBy, List.append_nil, hevents, trace_nil, List.foldl_nil]

theorem Loop.besides (hl : Loop s h) (hb : Besides s s') : Loop s' h where
  lines := lineInv_congr hl.lines hb.display hb.input hb.call
  typed := hl.typed
  nonzero := hl.nonzero
  idle := by rw [hb.place, hb.call]; exact hl.idle
  reading hread := by
    have hr := hl.reading (hb.place ▸ hread)
    exact ⟨by rw [hb.call]; exact hr.place, by rw [hb.call, hb.input]; exact hr.ready⟩
  executed := by rw [hb.place, hb.call]; exact hl.executed

theorem scancodeChar_ne_zero {sc c : UInt8} (h : Console.scancodeChar sc = some c) : c ≠ 0 := by
  rw [Console.scancodeChar] at h
  split at h
  · cases h
  split at h
  · cases h
  · simp only at h
    split at h
    · cases h
    · rename_i hne
      exact Option.some.inj h ▸ hne

theorem observe_key (h : History) (s : State) (sc : UInt8) :
    observe h (s, .key sc, none) = ⟨h.typed ++ (Console.scancodeChar sc).toList,
      { h.seen with current := h.seen.current ++ (Console.scancodeChar sc).toList },
      h.executed⟩ := by
  cases hsc : Console.scancodeChar sc <;>
    simp [observe, typedBy, consoleEvents, hsc, Console.observe]

theorem Loop.key (hl : Loop s h) (sc : UInt8) :
    Loop (keyPressed sc s) (observe h (s, .key sc, none)) := by
  rw [observe_key]
  cases hsc : Console.scancodeChar sc with
  | none =>
    rw [keyPressed, hsc, Option.toList_none, List.append_nil, List.append_nil]
    exact hl
  | some c =>
    rw [keyPressed, hsc, Option.toList_some]
    constructor
    case lines => exact hl.lines.push c
    case typed =>
      dsimp only
      rw [hl.typed, List.append_assoc]
    case nonzero =>
      rw [List.mem_append, List.mem_singleton, not_or]
      exact ⟨hl.nonzero, (scancodeChar_ne_zero hsc).symm⟩
    case idle => exact hl.idle
    case reading => exact fun hread => (hl.reading hread).push c
    case executed => exact hl.executed

def afterRead (s : State) : State :=
  { s with console := (Console.step s.console).2,
           place := if (Console.step s.console).1.isSome then .execute else .read }

theorem exec_read (m : Machine) (htodo : s.todo = []) (hplace : s.place = .read)
    (env : Shell.Surroundings) : exec m s (.step env) = (none, afterRead s) := by
  obtain ⟨console, shell, nic, table, sataReads, todo, place⟩ := s
  obtain rfl : todo = [] := htodo
  obtain rfl : place = .read := hplace
  rfl

theorem observe_read (h : History) (htodo : s.todo = []) (hplace : s.place = .read)
    (env : Shell.Surroundings) : observe h (s, .step env, none) =
      ⟨h.typed, Console.observe h.seen (s.console, .step, (Console.step s.console).1),
        h.executed⟩ := by
  obtain ⟨console, shell, nic, table, sataReads, todo, place⟩ := s
  obtain rfl : todo = [] := htodo
  obtain rfl : place = .read := hplace
  simp [observe, typedBy, consoleEvents, Console.exec]

theorem Loop.size_ne_zero (hl : Loop s h) (hplace : s.place = .read) :
    s.console.call.size ≠ 0 := by
  have hroom := hl.lines.room (hl.reading hplace).place.1
  rw [Console.inputBufferSize] at hroom
  omega

theorem Loop.read (hl : Loop s h) (hplace : s.place = .read) :
    Loop (afterRead s) ⟨h.typed,
      Console.observe h.seen (s.console, .step, (Console.step s.console).1), h.executed⟩ := by
  have hlines := hl.lines.step
  have hexecuted := hl.executed
  rw [if_neg (by rw [hplace]; decide), List.append_nil] at hexecuted
  rw [afterRead]
  rcases (hl.reading hplace).step (hl.size_ne_zero hplace) with ⟨-, hstep⟩ | ⟨-, hnone, hreading⟩
  · rw [hstep] at hlines ⊢
    dsimp only at hlines ⊢
    constructor
    case lines => exact hlines
    case typed => exact hl.typed.trans (flatten_observe_step _ _).symm
    case nonzero => exact hl.nonzero
    case idle => exact fun _ => rfl
    case reading => exact fun hread => by cases hread
    case executed =>
      rw [returned_observe_step, List.map_append, hexecuted]
      rfl
  · generalize Console.step s.console = result at hlines hnone hreading ⊢
    obtain ⟨returned, console⟩ := result
    obtain rfl : returned = none := hnone
    constructor
    case lines => exact hlines
    case typed => exact hl.typed.trans (flatten_observe_step _ _).symm
    case nonzero => exact hl.nonzero
    case idle => exact fun hne => absurd rfl hne
    case reading => exact fun _ => hreading
    case executed =>
      rw [returned_observe_step]
      simpa using hexecuted

def Place.Between (place : Place) : Prop := place ≠ .read ∧ place ≠ .execute

theorem between_afterDriver (nic : Rtl8139.State) : (afterDriver nic).Between := by
  rw [afterDriver]
  split <;> exact ⟨by simp, by simp⟩

theorem Loop.move (hl : Loop s h) (hconsole : s'.console = s.console) (hplace : s.place.Between)
    (hplace' : s'.place.Between) : Loop s' h where
  lines := by rw [hconsole]; exact hl.lines
  typed := hl.typed
  nonzero := hl.nonzero
  idle _ := by rw [hconsole]; exact hl.idle hplace.1
  reading hread := absurd hread hplace'.1
  executed := by
    have hexecuted := hl.executed
    rw [if_neg hplace.2] at hexecuted
    rw [if_neg hplace'.2, hexecuted]

theorem Loop.test (hl : Loop s h) (hplace : s.place = .test)
    (hready : Console.lineReady s.console.console = true) :
    Loop { s with
        console := (Console.exec s.console (.call s.console.call.buffer lineSize)).2
        place := .read } h := by
  have hidle : s.console.call.place = .idle := hl.idle (by rw [hplace]; decide)
  have hcall : Console.exec s.console (.call s.console.call.buffer lineSize) =
      (none, { s.console with call := ⟨.check, s.console.call.buffer, lineSize, 0, 0⟩ }) :=
    if_pos hidle
  have hexecuted := hl.executed
  rw [if_neg (by rw [hplace]; decide)] at hexecuted
  rw [hcall]
  constructor
  case lines => exact hl.lines.call hidle _ (Nat.le_refl _)
  case typed => exact hl.typed
  case nonzero => exact hl.nonzero
  case idle => exact fun hne => absurd rfl hne
  case reading => exact fun _ => ⟨by simp, fun _ => hready⟩
  case executed => rw [hexecuted]; rfl

theorem Loop.execute (hl : Loop s h) (hplace : s.place = .execute) (env : Shell.Surroundings)
    (shell : Shell.State) (todo : List Task) :
    Loop { s with shell := shell, todo := todo, place := .prompt }
      { h with executed := h.executed ++ [(env, s.line)] } where
  lines := hl.lines
  typed := hl.typed
  nonzero := hl.nonzero
  idle _ := hl.idle (by rw [hplace]; decide)
  reading hread := by cases hread
  executed := by
    have hexecuted := hl.executed
    rw [if_pos hplace] at hexecuted
    rw [hexecuted, List.map_append, if_neg (by simp), List.append_nil]
    rfl

/-- What happens keeps the invariant. -/
theorem Loop.exec (hl : Loop s h) (i : Input) :
    Loop (exec m s i).2 (observe h (s, i, (exec m s i).1)) := by
  cases i with
  | key sc => exact hl.key sc
  | step env =>
    obtain ⟨console, shell, nic, table, sataReads, todo, place⟩ := s
    cases todo with
    | cons task todo =>
      rw [observe_step_of_nil h rfl]
      simp only [Kernel.exec, Option.toList_none, List.append_nil]
      exact hl.besides (besides_perform task _ todo)
    | nil =>
      cases place with
      | poll =>
        rw [observe_step_of_nil h rfl]
        simp only [Kernel.exec, advance, Option.toList_none, List.append_nil]
        exact hl.move rfl ⟨by simp, by simp⟩ (between_afterDriver _)
      | round =>
        rw [observe_step_of_nil h rfl]
        simp only [Kernel.exec, advance, Option.toList_none, List.append_nil]
        exact hl.move rfl ⟨by simp, by simp⟩ (between_afterDriver _)
      | prompt =>
        rw [observe_step_of_nil h rfl]
        simp only [Kernel.exec, advance, Option.toList_none, List.append_nil]
        exact hl.move rfl ⟨by simp, by simp⟩ ⟨by simp, by simp⟩
      | execute =>
        rw [observe_step_of_nil h rfl]
        exact hl.execute rfl env _ _
      | test =>
        cases hready : Console.lineReady console.console with
        | false =>
          rw [observe_step_of_nil h (by simp [consoleEvents, hready])]
          simp only [Kernel.exec, advance, hready, Bool.false_eq_true, if_false,
            Option.toList_none, List.append_nil]
          exact hl.move rfl ⟨by simp, by simp⟩ ⟨by simp, by simp⟩
        | true =>
          have hsame : observe h (⟨console, shell, nic, table, sataReads, [], .test⟩, .step env,
              none) = h := by
            simp [observe, typedBy, consoleEvents, hready, Console.observe]
          simp only [Kernel.exec, advance, hready, if_true, hsame]
          exact hl.test rfl hready
      | read =>
        rw [exec_read m rfl rfl, observe_read h rfl rfl]
        exact hl.read rfl

/-! ## Runs -/

theorem lineText_of_holds {r : Console.Returned} {b : List UInt8}
    (h : Console.Holds r.buffer r.length b) (hb : 0 ∉ b) :
    lineText r.buffer = Console.lineOf b := by
  have hle := Console.length_lineOf_le b
  rw [← h.length_eq] at hle
  obtain ⟨k, hk⟩ : ∃ k, lineSize = r.length + (k + 1) := ⟨255 - r.length, by rw [lineSize]; omega⟩
  have hsplit : window r.buffer lineSize =
      Console.lineOf b ++ 0 :: window (fun j => r.buffer (r.length + 1 + j)) k := by
    rw [hk, window_add, window_from_succ, h.window_eq, h.terminated]
  rw [lineText, hsplit]
  apply text_append_zero
  intro c hc hzero
  rw [Console.lineOf] at hc
  rcases Console.mem_foldl_edit hc with hmem | ⟨hmem, -⟩
  · exact absurd hmem List.not_mem_nil
  · exact hb (hzero ▸ (List.takeWhile_sublist _).subset hmem)

theorem map_lineOf_of_delivered {returned : List Console.Returned} {past : List (List UInt8)}
    (h : Console.Delivered returned past) (hpast : ∀ b ∈ past, 0 ∉ b) :
    (∀ b ∈ past, Console.lineEnd ∈ b) ∧
      past.map Console.lineOf = returned.map fun r => lineText r.buffer := by
  induction h with
  | nil => exact ⟨fun _ hb => absurd hb List.not_mem_nil, rfl⟩
  | @cons r b returned past hholds _ ih =>
    obtain ⟨hended, hlines⟩ := ih fun b hb => hpast b (List.mem_cons_of_mem _ hb)
    refine ⟨List.forall_mem_cons.mpr ⟨hholds.ended, hended⟩, ?_⟩
    rw [List.map_cons, List.map_cons, hlines,
      lineText_of_holds hholds (hpast b List.mem_cons_self)]

/-- At most one line that has been typed and taken from the reader is not executed yet. -/
theorem Loop.waiting (hl : Loop s h) :
    ∃ waiting, waiting.length ≤ 1 ∧
      (waiting ≠ [] → s.place = .execute ∨ s.console.call.place = .returnLength) ∧
      (∀ b ∈ h.seen.past, Console.lineEnd ∈ b) ∧
      h.seen.past.map Console.lineOf = h.executed.map (fun i => text i.2) ++ waiting := by
  have hpast : ∀ b ∈ h.seen.past, 0 ∉ b := by
    intro b hb hzero
    apply hl.nonzero
    rw [hl.typed, List.mem_append]
    exact .inl (List.mem_flatten.mpr ⟨b, hb, hzero⟩)
  have hreturning := hl.lines.returning
  have hexecuted := hl.executed
  rw [Console.Returning] at hreturning
  split at hreturning
  · rename_i hplace
    obtain ⟨past, b, hsplit, hholds, hdelivered⟩ := hreturning
    have hread : s.place = .read := by
      by_contra hne
      rw [hl.idle hne] at hplace
      cases hplace
    rw [if_neg (by rw [hread]; decide), List.append_nil] at hexecuted
    rw [hsplit] at hpast ⊢
    obtain ⟨hended, hlines⟩ := map_lineOf_of_delivered hdelivered fun b hb =>
      hpast b (List.mem_append_left _ hb)
    refine ⟨[Console.lineOf b], Nat.le_refl 1, fun _ => .inr hplace, ?_, ?_⟩
    · intro b' hb'
      rcases List.mem_append.mp hb' with hb' | hb'
      · exact hended b' hb'
      · rw [List.mem_singleton.mp hb']
        exact hholds.ended
    · rw [List.map_append, hlines, hexecuted, List.map_singleton]
  · obtain ⟨hended, hlines⟩ := map_lineOf_of_delivered hreturning hpast
    refine ⟨_, ?_, fun hne => ?_, hended, hlines.trans hexecuted⟩
    · split
      · exact Nat.le_refl 1
      · exact Nat.zero_le 1
    · by_contra hplace
      rw [not_or] at hplace
      exact hne (if_neg hplace.1)

end Wnu.Kernel
