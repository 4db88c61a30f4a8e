import Wnu.Console.Screen
import Wnu.Runs.Machine

/-! # Line input

The keyboard interrupt pushes characters into the input buffer, and the kernel
reads a finished line out of it. A push runs as a whole; a read runs statement by
statement, so a push may come between any two of its statements.
-/

namespace Wnu.Console

open Memory

/-- The character `'\n'`. -/
abbrev lineEnd : UInt8 := '\n'.toUInt8

/-- The character `'\b'`. -/
abbrev rubout : UInt8 := 8

/-- `wnu_console_push_input` -/
def pushInput (s : State) (c : UInt8) : State :=
  if !s.display.ready then s
  else if s.input.lineReady then s
  else if c = lineEnd then
    let s := putchar s lineEnd
    { s with input := { s.input with buffer := Function.update s.input.buffer s.input.length 0
                                     lineReady := true } }
  else if c = rubout then
    if s.input.length = 0 then s
    else
      let s := { s with input.length := s.input.length - 1 }
      putchar { s with input.buffer := Function.update s.input.buffer s.input.length 0 } rubout
  else if s.input.length + 1 ≥ inputBufferSize then s
  else
    let s := { s with input := { s.input with
      buffer := Function.update s.input.buffer s.input.length c
      length := s.input.length + 1 } }
    putchar { s with input.buffer := Function.update s.input.buffer s.input.length 0 } c

/-- `wnu_console_line_ready` -/
def lineReady (s : State) : Bool := s.input.lineReady

/-- The statement of `wnu_console_readline` that is next; `idle` outside a call. -/
inductive Place
  | idle
  | check
  | test
  | terminateEmpty
  | returnZero
  | takeLength
  | capLength
  | copy
  | terminate
  | clearLength
  | clearBuffer
  | clearReady
  | returnLength
  deriving DecidableEq

/-- The arguments and variables of a call of `wnu_console_readline`; the buffer is not null. -/
structure Call where
  place : Place
  buffer : Mem UInt8
  size : ℕ
  copyLen : ℕ
  i : ℕ

structure Returned where
  found : Bool
  buffer : Mem UInt8
  length : ℕ

structure System where
  console : State
  call : Call

/-- The next statement of `wnu_console_readline`. -/
def step (s : System) : Option Returned × System :=
  let r := s.call
  match r.place with
  | .idle => (none, s)
  | .check =>
    if r.size = 0 then (some ⟨false, r.buffer, 0⟩, { s with call.place := .idle })
    else (none, { s with call.place := .test })
  | .test =>
    if !s.console.input.lineReady then (none, { s with call.place := .terminateEmpty })
    else (none, { s with call.place := .takeLength })
  | .terminateEmpty =>
    (none, { s with call := { r with
      place := .returnZero, buffer := Function.update r.buffer 0 0 } })
  | .returnZero => (some ⟨false, r.buffer, 0⟩, { s with call.place := .idle })
  | .takeLength =>
    (none, { s with call := { r with place := .capLength, copyLen := s.console.input.length } })
  | .capLength =>
    (none, { s with call := { r with
      place := .copy, copyLen := if r.copyLen ≥ r.size then r.size - 1 else r.copyLen, i := 0 } })
  | .copy =>
    if r.i < r.copyLen then
      (none, { s with call := { r with
        buffer := Function.update r.buffer r.i (s.console.input.buffer r.i), i := r.i + 1 } })
    else (none, { s with call.place := .terminate })
  | .terminate =>
    (none, { s with call := { r with
      place := .clearLength, buffer := Function.update r.buffer r.copyLen 0 } })
  | .clearLength =>
    (none, { s with console.input.length := 0, call.place := .clearBuffer })
  | .clearBuffer =>
    (none, { s with console.input.buffer := Function.update s.console.input.buffer 0 0,
                    call.place := .clearReady })
  | .clearReady =>
    (none, { s with console.input.lineReady := false, call.place := .returnLength })
  | .returnLength => (some ⟨true, r.buffer, r.copyLen⟩, { s with call.place := .idle })

/-- What can happen: a push, a call by the kernel, or the next statement of the call. -/
inductive Event
  | push (c : UInt8)
  | call (buffer : Mem UInt8) (size : ℕ)
  | step

/-- One event. The kernel calls again only when the call before has returned. -/
def exec (s : System) : Event → Option Returned × System
  | .push c => (none, { s with console := pushInput s.console c })
  | .call buffer size =>
    if s.call.place = .idle then (none, { s with call := ⟨.check, buffer, size, 0, 0⟩ })
    else (none, s)
  | .step => Console.step s

/-! ## Output leaves the input alone -/

@[simp] theorem newline_input (s : State) : (newline s).input = s.input := by
  unfold newline
  dsimp only
  split <;> rfl

@[simp] theorem newline_display (s : State) : (newline s).display = s.display := by
  unfold newline
  dsimp only
  split <;> rfl

@[simp] theorem printChar_input (s : State) (c : UInt8) : (printChar s c).input = s.input := by
  unfold printChar
  dsimp only
  split <;> simp

@[simp] theorem printChar_display (s : State) (c : UInt8) :
    (printChar s c).display = s.display := by
  unfold printChar
  dsimp only
  split <;> simp

@[simp] theorem backspace_input (s : State) : (backspace s).input = s.input := by
  unfold backspace
  split <;> rfl

@[simp] theorem backspace_display (s : State) : (backspace s).display = s.display := by
  unfold backspace
  split <;> rfl

@[simp] theorem putchar_input (s : State) (c : UInt8) : (putchar s c).input = s.input := by
  unfold putchar
  split_ifs <;> simp [Runs.forLoop]

@[simp] theorem putchar_display (s : State) (c : UInt8) : (putchar s c).display = s.display := by
  unfold putchar
  split_ifs <;> simp [Runs.forLoop]

/-! ## The screen does not matter -/

/-- Consoles that differ at most in what is on the screen. -/
structure Alike (s s' : State) : Prop where
  display : s.display = s'.display
  input : s.input = s'.input

variable {s s' : State} {sys sys' : System}

theorem Alike.putchar (h : Alike s s') (c : UInt8) : Alike (putchar s c) (putchar s' c) where
  display := by rw [putchar_display, putchar_display, h.display]
  input := by rw [putchar_input, putchar_input, h.input]

theorem Alike.clear (h : Alike s s') : Alike (clear s) (clear s') := by
  rw [Console.clear, Console.clear, h.display]
  split
  · exact h
  · exact ⟨rfl, h.input⟩

theorem Alike.pushInput (h : Alike s s') (c : UInt8) :
    Alike (pushInput s c) (pushInput s' c) := by
  obtain ⟨display, video, x, y, input, scrolls⟩ := s
  obtain ⟨display', video', x', y', input', scrolls'⟩ := s'
  obtain rfl : display = display' := h.display
  obtain rfl : input = input' := h.input
  have hend := h.putchar lineEnd
  unfold Console.pushInput
  dsimp only
  split
  · exact h
  split
  · exact h
  split
  · refine ⟨hend.display, ?_⟩
    dsimp only
    rw [putchar_input, putchar_input]
  split
  · split
    · exact h
    · apply Alike.putchar
      exact ⟨rfl, rfl⟩
  split
  · exact h
  · apply Alike.putchar
    exact ⟨rfl, rfl⟩

theorem Alike.step (h : Alike sys.console sys'.console) (hcall : sys.call = sys'.call) :
    (step sys).1 = (step sys').1 ∧ Alike (step sys).2.console (step sys').2.console ∧
      (step sys).2.call = (step sys').2.call := by
  obtain ⟨⟨display, video, x, y, input, scrolls⟩, ⟨place, buffer, size, copyLen, i⟩⟩ := sys
  obtain ⟨⟨display', video', x', y', input', scrolls'⟩, call⟩ := sys'
  obtain rfl : display = display' := h.display
  obtain rfl : input = input' := h.input
  obtain rfl := hcall
  cases place with
  | check | test | copy =>
    simp only [Console.step]
    split <;> exact ⟨rfl, ⟨rfl, rfl⟩, rfl⟩
  | _ => exact ⟨rfl, ⟨rfl, rfl⟩, rfl⟩

end Wnu.Console
