import Wnu.Console.Echo
import Wnu.Rtl8139.Network
import Wnu.Sata.Listing
import Wnu.Shell.Commands

/-! # The main loop

The kernel polls the network card, reads a line if one is finished, executes it and prints
a prompt, again and again. The keyboard interrupts it between any two characters that it
prints, between any two statements of a read and between any two rounds of a poll. What the
card does, and the disks, is not known.
-/

namespace Wnu.Kernel

open Memory Lib Text Runs

/-- What the kernel runs on. The string literals are at these addresses. -/
structure Machine where
  nic : Rtl8139.Platform
  card : Rtl8139.Card
  sata : Sata.Platform
  disks : Sata.Answers
  pci : Pci.ConfigSpace
  literalAt : String → UInt64

/-- Something that is still to be done for the line that has been executed, or of what the driver
prints. -/
inductive Task
  | putchar (c : UInt8)
  | clear
  | ping
  | udp
  | lsblk
  deriving DecidableEq

/-- The part of the main loop that is next, when nothing is still to be done: a call of
`rtl8139_poll`, a round of it, the test of `wnu_console_line_ready`, a statement of
`wnu_console_readline`, `wnu_shell_execute` or `wnu_shell_print_prompt`. -/
inductive Place
  | poll
  | round
  | test
  | read
  | execute
  | prompt
  deriving DecidableEq

/-- The state of the kernel. The buffer of the call of `wnu_console_readline` is `line`. -/
structure State where
  console : Console.System
  shell : Shell.State
  nic : Rtl8139.State
  table : Sata.Table
  sataReads : ℕ
  todo : List Task
  place : Place

/-- A key that is pressed or released, or a step of the main loop with what a command finds around
it. -/
inductive Input
  | key (scancode : UInt8)
  | step (env : Shell.Surroundings)

def printing (bytes : List UInt8) : List Task := bytes.map .putchar

def nicText (events : List Rtl8139.Event) : List UInt8 :=
  events.reverse.flatMap fun
    | .printf format args => printed format (args.map .num)
    | _ => []

def tasks : Shell.Output → List Task
  | .console bytes => printing bytes
  | .clear => [.clear]
  | .ping => [.ping]
  | .udp => [.udp]
  | .lsblk => [.lsblk]

variable (m : Machine)

/-- `wnu_irq1_c_handler`, for a scancode. -/
def keyPressed (sc : UInt8) (s : State) : State :=
  match Console.scancodeChar sc with
  | none => s
  | some c => { s with console.console := Console.pushInput s.console.console c }

def driverStep (i : Rtl8139.Input) (s : State) : State :=
  let (events, nic) := Rtl8139.exec m.nic m.card s.nic i
  { s with nic := nic, todo := printing (nicText events) ++ s.todo }

/-- `wnu_sata_print_devices` -/
def listDevices (s : State) : State :=
  let (table, w) := Sata.printDevices m.sata m.disks m.literalAt m.pci
    { s.table with printed := [] } ⟨s.sataReads, [], []⟩
  { s with table := table, sataReads := w.reads,
           todo := printing (table.printed.reverse.flatMap ascii ++ w.output) ++ s.todo }

def perform : Task → State → State
  | .putchar c, s => { s with console.console := Console.putchar s.console.console c }
  | .clear, s => { s with console.console := Console.clear s.console.console }
  | .ping, s => driverStep m .ping s
  | .udp, s => driverStep m .udp s
  | .lsblk, s => listDevices m s

def afterDriver (nic : Rtl8139.State) : Place := if nic.polling = none then .test else .round

/-- `sizeof(line)` -/
def lineSize : ℕ := 256

def State.line (s : State) : List UInt8 := window s.console.call.buffer lineSize

/-- `wnu_shell_print_prompt` -/
def promptText (s : Shell.State) : List UInt8 := text s.dir ++ ascii " % "

def advance (env : Shell.Surroundings) (s : State) : Option Shell.Input × State :=
  match s.place with
  | .poll =>
    let s := driverStep m .poll s
    (none, { s with place := afterDriver s.nic })
  | .round =>
    let s := driverStep m .round s
    (none, { s with place := afterDriver s.nic })
  | .test =>
    if Console.lineReady s.console.console then
      (none, { s with
        console := (Console.exec s.console (.call s.console.call.buffer lineSize)).2
        place := .read })
    else (none, { s with place := .poll })
  | .read =>
    let (returned, console) := Console.exec s.console .step
    (none, { s with console := console, place := if returned.isSome then .execute else .read })
  | .execute =>
    let (output, shell) := Shell.exec s.shell (env, s.line)
    (some (env, s.line), { s with shell := shell, todo := tasks output, place := .prompt })
  | .prompt =>
    (none, { s with todo := printing (promptText s.shell), place := .poll })

def exec (s : State) : Input → Option Shell.Input × State
  | .key sc => (none, keyPressed sc s)
  | .step env =>
    match s.todo with
    | [] => advance m env s
    | task :: todo => (none, perform m task { s with todo := todo })

/-! ## What a step gives to the parts -/

def typedBy : Input → List UInt8
  | .key sc => (Console.scancodeChar sc).toList
  | .step _ => []

/-- The events of the console: what is pushed, and the calls of `wnu_console_readline` with their
statements. -/
def consoleEvents (s : State) : Input → List Console.Event
  | .key sc => (Console.scancodeChar sc).toList.map .push
  | .step _ =>
    match s.todo, s.place with
    | [], .test =>
      if Console.lineReady s.console.console then [.call s.console.call.buffer lineSize] else []
    | [], .read => [.step]
    | _, _ => []

def driverInputs (s : State) : Input → List Rtl8139.Input
  | .key _ => []
  | .step _ =>
    match s.todo, s.place with
    | .ping :: _, _ => [.ping]
    | .udp :: _, _ => [.udp]
    | [], .poll => [.poll]
    | [], .round => [.round]
    | _, _ => []

def executed (s : State) (is : List Input) : List Shell.Input :=
  (trace (exec m) s is).filterMap fun e => e.2.2

variable {m} {s : State}

@[simp] theorem todo_keyPressed (sc : UInt8) (s : State) : (keyPressed sc s).todo = s.todo := by
  rw [keyPressed]
  split <;> rfl

@[simp] theorem place_keyPressed (sc : UInt8) (s : State) :
    (keyPressed sc s).place = s.place := by
  rw [keyPressed]
  split <;> rfl

@[simp] theorem nic_keyPressed (sc : UInt8) (s : State) : (keyPressed sc s).nic = s.nic := by
  rw [keyPressed]
  split <;> rfl

@[simp] theorem call_keyPressed (sc : UInt8) (s : State) :
    (keyPressed sc s).console.call = s.console.call := by
  rw [keyPressed]
  split <;> rfl

/-- What a task leaves alone: the line being typed, the call of `wnu_console_readline`, the shell
and the place. -/
structure Besides (s s' : State) : Prop where
  display : s'.console.console.display = s.console.console.display
  input : s'.console.console.input = s.console.console.input
  call : s'.console.call = s.console.call
  shell : s'.shell = s.shell
  place : s'.place = s.place

theorem besides_perform (task : Task) (s : State) (todo : List Task) :
    Besides s (perform m task { s with todo := todo }) := by
  cases task with
  | putchar c =>
    exact ⟨Console.putchar_display _ c, Console.putchar_input _ c, rfl, rfl, rfl⟩
  | clear =>
    have hclear : ∀ c : Console.State, (Console.clear c).display = c.display ∧
        (Console.clear c).input = c.input := by
      intro c
      rw [Console.clear]
      split <;> exact ⟨rfl, rfl⟩
    exact ⟨(hclear _).1, (hclear _).2, rfl, rfl, rfl⟩
  | ping => exact ⟨rfl, rfl, rfl, rfl, rfl⟩
  | udp => exact ⟨rfl, rfl, rfl, rfl, rfl⟩
  | lsblk => exact ⟨rfl, rfl, rfl, rfl, rfl⟩

theorem nic_exec (s : State) (i : Input) :
    (exec m s i).2.nic = run (Rtl8139.exec m.nic m.card) s.nic (driverInputs s i) := by
  cases i with
  | key sc => exact nic_keyPressed sc s
  | step env =>
    obtain ⟨console, shell, nic, table, sataReads, todo, place⟩ := s
    cases todo with
    | cons task todo => cases task <;> rfl
    | nil =>
      cases place with
      | test =>
        simp only [exec, advance]
        split <;> rfl
      | _ => rfl

theorem executed_cons (s : State) (i : Input) (is : List Input) :
    executed m s (i :: is) = (exec m s i).1.toList ++ executed m (exec m s i).2 is := by
  rw [executed, trace_cons, List.filterMap_cons, executed]
  cases (exec m s i).1 <;> rfl

/-- States that differ at most in what is on the screen. -/
structure Alike (s s' : State) : Prop where
  console : Console.Alike s.console.console s'.console.console
  call : s.console.call = s'.console.call
  shell : s.shell = s'.shell
  nic : s.nic = s'.nic
  table : s.table = s'.table
  sataReads : s.sataReads = s'.sataReads
  todo : s.todo = s'.todo
  place : s.place = s'.place

variable {s' : State}

theorem Alike.exec (h : Alike s s') (i : Input) :
    (exec m s i).1 = (exec m s' i).1 ∧ Alike (exec m s i).2 (exec m s' i).2 := by
  obtain ⟨⟨console, call⟩, shell, nic, table, sataReads, todo, place⟩ := s
  obtain ⟨⟨console', call'⟩, shell', nic', table', sataReads', todo', place'⟩ := s'
  obtain ⟨hconsole, hcall, hshell, hnic, htable, hreads, htodo, hplace⟩ := h
  dsimp only at hconsole hcall hshell hnic htable hreads htodo hplace
  subst hcall hshell hnic htable hreads htodo hplace
  cases i with
  | key sc =>
    simp only [Kernel.exec, keyPressed]
    split
    · exact ⟨trivial, hconsole, rfl, rfl, rfl, rfl, rfl, rfl, rfl⟩
    · exact ⟨trivial, hconsole.pushInput _, rfl, rfl, rfl, rfl, rfl, rfl, rfl⟩
  | step env =>
    cases todo with
    | cons task todo =>
      cases task with
      | putchar c => exact ⟨rfl, hconsole.putchar c, rfl, rfl, rfl, rfl, rfl, rfl, rfl⟩
      | clear => exact ⟨rfl, hconsole.clear, rfl, rfl, rfl, rfl, rfl, rfl, rfl⟩
      | _ => exact ⟨rfl, hconsole, rfl, rfl, rfl, rfl, rfl, rfl, rfl⟩
    | nil =>
      cases place with
      | test =>
        have hflag : Console.lineReady console = Console.lineReady console' :=
          congrArg Console.Input.lineReady hconsole.input
        cases hready : Console.lineReady console' with
        | false =>
          simp only [Kernel.exec, advance, hflag, hready, Bool.false_eq_true, if_false]
          exact ⟨trivial, hconsole, rfl, rfl, rfl, rfl, rfl, rfl, rfl⟩
        | true =>
          simp only [Kernel.exec, advance, hflag, hready, if_true, Console.exec]
          split <;> exact ⟨trivial, hconsole, rfl, rfl, rfl, rfl, rfl, rfl, rfl⟩
      | read =>
        obtain ⟨hreturned, hconsole', hcall'⟩ :=
          @Console.Alike.step ⟨console, call⟩ ⟨console', call⟩ hconsole rfl
        refine ⟨rfl, hconsole', hcall', rfl, rfl, rfl, rfl, rfl, ?_⟩
        exact congrArg (fun r : Option Console.Returned =>
          if r.isSome then Place.execute else Place.read) hreturned
      | _ => exact ⟨rfl, hconsole, rfl, rfl, rfl, rfl, rfl, rfl, rfl⟩

theorem Alike.executed (h : Alike s s') (is : List Input) :
    executed m s is = executed m s' is := by
  induction is generalizing s s' with
  | nil => rfl
  | cons i is ih =>
    obtain ⟨hout, hnext⟩ := h.exec (m := m) i
    rw [executed_cons, executed_cons, hout, ih hnext]

theorem Alike.driverInputs (h : Alike s s') (i : Input) :
    driverInputs s i = driverInputs s' i := by
  simp only [Kernel.driverInputs, h.todo, h.place]

theorem Alike.given_driverInputs (h : Alike s s') (is : List Input) :
    given (Kernel.exec m) Kernel.driverInputs s is =
      given (Kernel.exec m) Kernel.driverInputs s' is := by
  induction is generalizing s s' with
  | nil => rfl
  | cons i is ih => rw [given_cons, given_cons, h.driverInputs, ih (h.exec i).2]

end Wnu.Kernel
