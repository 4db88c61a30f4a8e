import Wnu.Fat32.Mount
import Wnu.Shell.Resolve
import Wnu.Vfs.Tree

/-! # The commands of the shell

A line is read as a command, by its first word or as a whole, and the command is run on
the file system and the current directory. The network code and the list of block
devices share nothing with the shell, so a command that calls them only makes the call.
-/

namespace Wnu.Shell

open Text Memory Vfs Fat32

/-- The file system and `current_dir`. -/
structure State where
  vfs : Table
  currentDir : Mem UInt8

/-- What a command finds around it: the block devices by name, what the arrays of `fat32_mount`
hold, and what the array for a path holds. -/
structure Surroundings where
  device : List UInt8 → Device
  buffers : Buffer → Mem UInt8
  stack : Mem UInt8

def bare : Surroundings where
  device := fun _ => ⟨false, fun _ _ bytes => (false, bytes)⟩
  buffers := fun _ _ => 0
  stack := fun _ => 0

/-- What a command does besides: the bytes it writes to the console, `wnu_console_clear`,
`net_ping_qemu_gateway`, `net_udp_test` or `wnu_sata_print_devices`. -/
inductive Output
  | console (bytes : List UInt8)
  | clear
  | ping
  | udp
  | lsblk
  deriving DecidableEq

/-- The byte `' '`. -/
abbrev space : UInt8 := ' '.toUInt8

/-- The byte `'\\n'`. -/
abbrev newline : UInt8 := '\n'.toUInt8

/-- `WNU_VERSION` -/
def version : String := "0.2.0"

/-- The branches of `wnu_shell_execute`, with the rest of the line. -/
inductive Command
  | nothing
  | help
  | clear
  | about
  | pwd
  | echo (s : List UInt8)
  | cd (path : List UInt8)
  | ls
  | lsPath (path : List UInt8)
  | cat (path : List UInt8)
  | touch (path : List UInt8)
  | mkdir (path : List UInt8)
  | tree
  | treePath (path : List UInt8)
  | rm (path : List UInt8)
  | ping
  | udp
  | lsblk
  | mountUsage
  | mount (args : List UInt8)
  | write (args : List UInt8)
  | unknown

/-- The tests of `wnu_shell_execute`, in their order. -/
def parse (line : List UInt8) : Command :=
  if stringEqual line (ascii "") then .nothing
  else if stringEqual line (ascii "help") then .help
  else if stringEqual line (ascii "clear") then .clear
  else if stringEqual line (ascii "about") then .about
  else if stringEqual line (ascii "pwd") then .pwd
  else if stringStartsWith line (ascii "echo ") then .echo (line.drop 5)
  else if stringStartsWith line (ascii "cd ") then .cd (line.drop 3)
  else if stringEqual line (ascii "ls") then .ls
  else if stringStartsWith line (ascii "ls ") then .lsPath (line.drop 3)
  else if stringStartsWith line (ascii "cat ") then .cat (line.drop 4)
  else if stringStartsWith line (ascii "touch ") then .touch (line.drop 6)
  else if stringStartsWith line (ascii "mkdir ") then .mkdir (line.drop 6)
  else if stringEqual line (ascii "tree") then .tree
  else if stringStartsWith line (ascii "tree ") then .treePath (line.drop 5)
  else if stringStartsWith line (ascii "rm ") then .rm (line.drop 3)
  else if stringEqual line (ascii "ping") then .ping
  else if stringEqual line (ascii "udp") then .udp
  else if stringEqual line (ascii "lsblk") then .lsblk
  else if stringEqual line (ascii "mount") then .mountUsage
  else if stringStartsWith line (ascii "mount ") then .mount (line.drop 6)
  else if stringStartsWith line (ascii "write ") then .write (line.drop 6)
  else .unknown

/-- `print_help` -/
def helpText : List UInt8 :=
  ascii ("commands:\n" ++ "  help\n" ++ "  clear\n" ++ "  about\n" ++ "  echo <text>\n" ++
    "  pwd\n" ++ "  cd <path>\n" ++ "  ls [path]\n" ++ "  cat <path>\n" ++ "  touch <path>\n" ++
    "  mkdir <path>\n" ++ "  rm <path>\n" ++ "  tree <path>\n" ++ "  write <path> <text>\n" ++
    "  ping\n" ++ "  udp\n" ++ "  lsblk\n" ++ "  mount <dev> <mountpoint>\n")

/-- The string in `current_dir`. -/
def State.dir (s : State) : List UInt8 := window s.currentDir pathMax

variable (env : Surroundings)

/-- `char path[PATH_MAX]; resolve_path(input, path, PATH_MAX)`: the string in `path`, if it
succeeds. -/
def resolve (s : State) (input : List UInt8) : Option (List UInt8) :=
  let (ok, path) := resolvePath s.dir input env.stack pathMax
  if ok then some (window path pathMax) else none

/-- The `cd` branch. -/
def cd (input : List UInt8) (s : State) : List UInt8 × State :=
  match resolve env s input with
  | none => (ascii "cd: invalid path\n", s)
  | some path =>
    if !exists' s.vfs path then (ascii "cd: no such file or directory\n", s)
    else if !isDir s.vfs path then (ascii "cd: not a directory\n", s)
    else ([], { s with currentDir := stringCopy s.currentDir path pathMax })

def showPath (invalid : String) (show' : Table → List UInt8 → List UInt8) (input : List UInt8)
    (s : State) : List UInt8 :=
  match resolve env s input with
  | none => ascii invalid
  | some path => show' s.vfs path

/-- What the `cat` branch prints of a path. -/
def catPath (t : Table) (path : List UInt8) : List UInt8 :=
  match readFile t path with
  | none => ascii "cat: cannot read file\n"
  | some (data, size) =>
    window data size.toNat ++
      if size = 0 ∨ data (size - 1).toNat ≠ newline then ascii "\n" else []

/-- The `ls` branch with a path. -/
def lsPath : List UInt8 → State → List UInt8 := showPath env "ls: invalid path\n" listDir

/-- The `tree` branch with a path. -/
def treePath : List UInt8 → State → List UInt8 := showPath env "tree: invalid path\n" tree

/-- The `cat` branch. -/
def cat : List UInt8 → State → List UInt8 := showPath env "cat: invalid path\n" catPath

def changePath (invalid failed : String) (change : Table → List UInt8 → Bool × Table)
    (input : List UInt8) (s : State) : List UInt8 × State :=
  match resolve env s input with
  | none => (ascii invalid, s)
  | some path =>
    let (ok, vfs) := change s.vfs path
    (if ok then [] else ascii failed, { s with vfs := vfs })

/-- The `touch` branch. -/
def touch : List UInt8 → State → List UInt8 × State :=
  changePath env "touch: invalid path\n" "touch: failed\n" createFile

/-- The `mkdir` branch. -/
def mkdir : List UInt8 → State → List UInt8 × State :=
  changePath env "mkdir: invalid path\n" "mkdir: failed\n" createDir

/-- The `rm` branch. -/
def rm : List UInt8 → State → List UInt8 × State :=
  changePath env "rm: invalid path\n" "rm: failed\n" delete

/-- `while (args[i] != '\\0' && args[i] != ' ') i++;` -/
def tokenLength : List UInt8 → ℕ
  | [] => 0
  | c :: args => if c ≠ 0 ∧ c ≠ space then tokenLength args + 1 else 0

/-- `while (args[k] == ' ') k++;` -/
def spacesLength : List UInt8 → ℕ
  | [] => 0
  | c :: args => if c = space then spacesLength args + 1 else 0

/-- The `mount` branch. -/
def mount (args : List UInt8) (s : State) : List UInt8 × State :=
  let i := tokenLength args
  if args.getD i 0 = 0 then (ascii "usage: mount <dev> <mountpoint>\n", s)
  else
    let k := i + spacesLength (args.drop i)
    if args.getD k 0 = 0 then (ascii "usage: mount <dev> <mountpoint>\n", s)
    else
      let dev := args.take (min i (pathMax - 1))
      match resolve env s (args.drop k) with
      | none => (ascii "mount: invalid mountpoint\n", s)
      | some mp =>
        let (ok, m) := fat32Mount (env.device dev) mp (.start s.vfs env.buffers)
        (m.console ++ (if ok then [] else ascii "mount: failed\n"), { s with vfs := m.vfs })

/-- What the `write` branch does to the file system at a path. -/
def writePath (str : List UInt8) (t : Table) (path : List UInt8) : Bool × Table :=
  let t := if !exists' t path then (createFile t path).2 else t
  writeFile t path (some (ofList str 0)) (UInt64.ofNat (stringLen str))

/-- The `write` branch. -/
def write (args : List UInt8) (s : State) : List UInt8 × State :=
  let i := tokenLength args
  if args.getD i 0 ≠ space then (ascii "usage: write /file text\n", s)
  else if i ≥ pathMax then (ascii "path too long\n", s)
  else
    changePath env "write: invalid path\n" "write: failed\n" (writePath (args.drop (i + 1)))
      (args.take i) s

/-- The branches of `wnu_shell_execute`. -/
def Command.run (line : List UInt8) : Command → State → Output × State
  | nothing, s => (.console [], s)
  | help, s => (.console helpText, s)
  | clear, s => (.clear, s)
  | about, s => (.console (ascii "WNU v" ++ ascii version ++ ascii "\n"), s)
  | pwd, s => (.console (text s.dir ++ ascii "\n"), s)
  | echo str, s => (.console (text str ++ ascii "\n"), s)
  | cd path, s => let (out, s) := Shell.cd env path s; (.console out, s)
  | ls, s => (.console (listDir s.vfs s.dir), s)
  | lsPath path, s => (.console (Shell.lsPath env path s), s)
  | cat path, s => (.console (Shell.cat env path s), s)
  | touch path, s => let (out, s) := Shell.touch env path s; (.console out, s)
  | mkdir path, s => let (out, s) := Shell.mkdir env path s; (.console out, s)
  | tree, s => (.console (Vfs.tree s.vfs s.dir), s)
  | treePath path, s => (.console (Shell.treePath env path s), s)
  | rm path, s => let (out, s) := Shell.rm env path s; (.console out, s)
  | ping, s => (.ping, s)
  | udp, s => (.udp, s)
  | lsblk, s => (.lsblk, s)
  | mountUsage, s => (.console (ascii "usage: mount <dev> <mountpoint>\n"), s)
  | mount args, s => let (out, s) := Shell.mount env args s; (.console out, s)
  | write args, s => let (out, s) := Shell.write env args s; (.console out, s)
  | unknown, s => (.console (ascii "unknown command: " ++ text line ++ ascii "\n"), s)

/-- `wnu_shell_execute` -/
def execute (line : List UInt8) (s : State) : Output × State := (parse line).run env line s

abbrev Input := Surroundings × List UInt8

def exec (s : State) (i : Input) : Output × State := execute i.1 i.2 s

def boot (t : Table) : State := ⟨t, ofList rootPath 0⟩

@[simp] theorem vfs_boot (t : Table) : (boot t).vfs = t := rfl

@[simp] theorem text_dir_boot (t : Table) : text (boot t).dir = rootPath := by
  have hdir : (boot t).dir = window (ofList rootPath 0) pathMax := rfl
  rw [hdir]
  decide

/-- The states of the shell that some lines lead to, from an initialized file system. -/
def Reachable (s : State) : Prop :=
  ∃ t inputs, Vfs.Reachable t ∧ s = Runs.run exec (boot t) inputs

end Wnu.Shell
