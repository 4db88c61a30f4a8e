import Wnu.Kernel.Machine
import Wnu.Sata.Init

/-! # The start of the kernel

The console is bound first, and then the file system, the network card, the controllers and
the network code are initialized, one after the other. What they print is on the screen
before interrupts are enabled.
-/

namespace Wnu.Kernel

open Memory Lib Text Runs

/-- `BANNER` -/
def banner : List UInt8 :=
  ascii ("__        ___   _ _   _ \n" ++ "\\ \\      / / \\ | | | | |\n" ++
    " \\ \\ /\\ / /|  \\| | | | |\n" ++ "  \\ V  V / | |\\  | |_| |\n" ++
    "   \\_/\\_/  |_| \\_|\\___/ \n" ++ "\n" ++ "WNU's Not Unix\n")

/-- What is printed by `wnu_shell_init` and just before it. -/
def greeting (s : Shell.State) : List UInt8 :=
  banner ++ printed "Test %d printf()\n" [.num 1] ++ ascii "WNU console ready\n" ++
    ascii "type 'help'\n" ++ promptText s

/-- What the static storage holds, and what the boot loader gives: a framebuffer and a font. -/
structure Loaded where
  fb : Console.Framebuffer
  font : Console.Font
  vfs : Vfs.Table
  driver : Rtl8139.Driver
  table : Sata.Table
  namesAt : ℕ → UInt64

/-- `_start`, from `wnu_console_bind` to the main loop. -/
def boot (m : Machine) (l : Loaded) : State :=
  let console := Console.clear (Console.bind Console.staticState (some l.fb) (some l.font))
  let vfs := Vfs.init l.vfs
  let call := Rtl8139.init m.nic m.card m.pci l.driver.enter
  let (table, setup) := Sata.sataInit m.sata m.disks l.namesAt m.pci l.table
    ⟨⟨Block.noDevices, vfs⟩, ⟨0, [], []⟩⟩
  let driver := { call.toDriver with net := Net.netInit call.net }
  let shell := Shell.boot setup.registry.vfs
  let text := nicText call.events ++ setup.walk.output ++ greeting shell
  { console := ⟨text.foldl Console.putchar console, Console.noCall⟩
    shell := shell
    nic := ⟨driver, none⟩
    table := table
    sataReads := setup.walk.reads
    todo := []
    place := .poll }

def Loaded.Usable (l : Loaded) : Prop :=
  (Console.bind Console.staticState (some l.fb) (some l.font)).display.ready = true

instance (l : Loaded) : Decidable l.Usable := inferInstanceAs (Decidable (_ = true))

def quietMachine : Machine where
  nic := Rtl8139.identityMapped
  card := ⟨fun _ _ => Rtl8139.cmdRxEmpty, fun _ _ => 0, fun _ _ => 0⟩
  sata := ⟨⟨0, 0⟩, 0x30000, 0x31000, 0x32000⟩
  disks := fun _ _ => 0
  pci := Rtl8139.cardEverywhere
  literalAt := fun _ => 0

def silentMachine : Machine :=
  { quietMachine with
    card := ⟨fun _ port => if port = 0xc037 then Rtl8139.cmdRxEmpty else 0, fun _ _ => 0,
      fun _ _ => 0⟩ }

def smallScreen : Loaded where
  fb := Console.tenColumns
  font := ⟨Console.font8x16, fun _ => 0⟩
  vfs := Vfs.staticTable
  driver := Rtl8139.boot
  table := ⟨⟨fun _ => ⟨0, 0, 0, 0, 0, 0, 0, 0, Vector.replicate 6 0⟩, 0⟩, []⟩
  namesAt := fun _ => 0

/-- `ping` is typed, and the main loop gets as far as to do what the line asks for. -/
def pingTyped : List Input :=
  [.key 0x19, .key 0x17, .key 0x31, .key 0x22, .key 0x1c] ++ List.replicate 18 (.step Shell.bare)

variable {m : Machine} {l : Loaded}

theorem foldl_putchar_input (cs : List UInt8) (c : Console.State) :
    (cs.foldl Console.putchar c).input = c.input ∧
      (cs.foldl Console.putchar c).display = c.display := by
  induction cs generalizing c with
  | nil => exact ⟨rfl, rfl⟩
  | cons b cs ih =>
    obtain ⟨hinput, hdisplay⟩ := ih (Console.putchar c b)
    rw [List.foldl_cons]
    exact ⟨hinput.trans (Console.putchar_input c b), hdisplay.trans (Console.putchar_display c b)⟩

theorem console_boot (m : Machine) (l : Loaded) :
    let bound := Console.bind Console.staticState (some l.fb) (some l.font)
    (boot m l).console.console.input = bound.input ∧
      (boot m l).console.console.display = bound.display := by
  intro bound
  have hclear : (Console.clear bound).input = bound.input ∧
      (Console.clear bound).display = bound.display := by
    rw [Console.clear]
    split <;> exact ⟨rfl, rfl⟩
  obtain ⟨hinput, hdisplay⟩ := foldl_putchar_input _ (Console.clear bound)
  exact ⟨hinput.trans hclear.1, hdisplay.trans hclear.2⟩

def unprinted (m : Machine) (l : Loaded) : State :=
  let nic := Rtl8139.start m.nic m.card m.pci l.driver
  { console := ⟨Console.bind Console.staticState (some l.fb) (some l.font), Console.noCall⟩
    shell := (boot m l).shell
    nic := { nic with driver.net := Net.netInit nic.driver.net }
    table := (boot m l).table
    sataReads := (boot m l).sataReads
    todo := []
    place := .poll }

theorem alike_boot (m : Machine) (l : Loaded) : Alike (boot m l) (unprinted m l) := by
  obtain ⟨hinput, hdisplay⟩ := console_boot m l
  exact ⟨⟨hdisplay, hinput⟩, rfl, rfl, rfl, rfl, rfl, rfl, rfl⟩

theorem executed_pingTyped :
    (executed silentMachine (boot silentMachine smallScreen) pingTyped).map (fun i => text i.2) =
      [ascii "ping"] := by
  rw [(alike_boot silentMachine smallScreen).executed]
  decide +kernel

end Wnu.Kernel
