import Wnu.Runs.Loops
import Wnu.Vfs.Operations

/-! # Mounting a FAT32 volume

The mount reads the boot sector and the first cluster of the root directory, and
imports each entry as a file. The arrays of the source are separate memories
indexed by naturals; every index used and every read issued is recorded. The
block device is a parameter: it answers each read with success or failure and
with what the buffer holds afterwards.
-/

namespace Wnu.Fat32

open Text Memory Runs Vfs

/-- The arrays of `fat32_mount`. -/
inductive Buffer
  | sector
  | clusterBuf
  | fatSectorBuf
  | fileBuf
  | name
  | path
  deriving DecidableEq

def Buffer.size : Buffer → ℕ
  | .sector => 512
  | .clusterBuf => 8192
  | .fatSectorBuf => 4096
  | .fileBuf => 4096
  | .name => 16
  | .path => 64

/-- The arguments of `wnu_block_read`. -/
structure Read where
  lba : UInt32
  buffer : Buffer
  count : ℕ
  deriving DecidableEq

/-- A block device by name: whether it is found, and its answer to each read, which may
depend on how many reads came before it and on what the buffer held. -/
structure Device where
  found : Bool
  read : ℕ → Read → Mem UInt8 → Bool × Mem UInt8

/-- The state of a mount, with the reads issued and the array elements accessed so far. -/
structure Mount where
  vfs : Table
  console : List UInt8
  buffers : Buffer → Mem UInt8
  reads : List Read
  accesses : List (Buffer × ℕ)

namespace Mount

def write (m : Mount) (s : String) : Mount := { m with console := m.console ++ ascii s }

def touch (m : Mount) (b : Buffer) (is : List ℕ) : Mount :=
  { m with accesses := is.map (b, ·) ++ m.accesses }

def store (m : Mount) (b : Buffer) (i : ℕ) (x : UInt8) : Mount :=
  { m.touch b [i] with
    buffers := Function.update m.buffers b (Function.update (m.buffers b) i x) }

def start (t : Table) (buffers : Buffer → Mem UInt8) : Mount := ⟨t, [], buffers, [], []⟩

@[simp] theorem vfs_start (t : Table) (buffers : Buffer → Mem UInt8) :
    (start t buffers).vfs = t := rfl

/-- The C string in `path`. -/
def pathString (m : Mount) : List UInt8 := window (m.buffers .path) maxName

end Mount

/-- `wnu_block_read` -/
def blockRead (dev : Device) (lba : UInt32) (b : Buffer) (count : ℕ) (m : Mount) : Bool × Mount :=
  let (ok, bytes) := dev.read m.reads.length ⟨lba, b, count⟩ (m.buffers b)
  (ok, { m with buffers := Function.update m.buffers b bytes, reads := ⟨lba, b, count⟩ :: m.reads })

/-- `read_u16` -/
def readU16 (p : Mem UInt8) (i : ℕ) : UInt16 := (p i).toUInt16 ||| ((p (i + 1)).toUInt16 <<< 8)

/-- `read_u32` -/
def readU32 (p : Mem UInt8) (i : ℕ) : UInt32 :=
  (p i).toUInt32 ||| ((p (i + 1)).toUInt32 <<< 8) ||| ((p (i + 2)).toUInt32 <<< 16) |||
    ((p (i + 3)).toUInt32 <<< 24)

structure Boot where
  bytesPerSector : UInt16
  sectorsPerCluster : UInt8
  reservedSectors : UInt16
  numFats : UInt8
  fatSize : UInt32
  rootCluster : UInt32

def bootOf (sector : Mem UInt8) : Boot where
  bytesPerSector := readU16 sector 11
  sectorsPerCluster := sector 13
  reservedSectors := readU16 sector 14
  numFats := sector 16
  fatSize := readU32 sector 36
  rootCluster := readU32 sector 44

namespace Boot

def firstFatSector (boot : Boot) : UInt32 := boot.reservedSectors.toUInt32

def firstDataSector (boot : Boot) : UInt32 :=
  boot.reservedSectors.toUInt32 + boot.numFats.toUInt32 * boot.fatSize

/-- `sector_of_cluster`, and `first_root_sector` for the root cluster. -/
def sectorOfCluster (boot : Boot) (cluster : UInt32) : UInt32 :=
  boot.firstDataSector + (cluster - 2) * boot.sectorsPerCluster.toUInt32

/-- `bytes_per_sector * sectors_per_cluster_u32`; the product of 16 and 8 bits fits a word. -/
def clusterSize (boot : Boot) : ℕ := boot.bytesPerSector.toNat * boot.sectorsPerCluster.toNat

def fatOffset (cluster : UInt32) : UInt64 := cluster.toUInt64 * 4

def fatSector (boot : Boot) (cluster : UInt32) : UInt32 :=
  boot.firstFatSector + (fatOffset cluster / boot.bytesPerSector.toUInt64).toUInt32

def fatSectorOffset (boot : Boot) (cluster : UInt32) : UInt32 :=
  (fatOffset cluster % boot.bytesPerSector.toUInt64).toUInt32

end Boot

/-! ## Names and paths -/

/-- The byte `' '`. -/
abbrev space : UInt8 := ' '.toUInt8

/-- The byte `'.'`. -/
abbrev dot : UInt8 := '.'.toUInt8

/-- `for (i; i < n; ++i) { c = cluster_buf[base + i]; if (c == ' ') break; name[npos++] = c; }`,
with the iterations left. -/
def copyPart (base : ℕ) : ℕ → ℕ → ℕ → Mount → ℕ × Mount
  | 0, _, npos, m => (npos, m)
  | n + 1, i, npos, m =>
    let c := m.buffers .clusterBuf (base + i)
    let m := m.touch .clusterBuf [base + i]
    if c = space then (npos, m)
    else copyPart base n (i + 1) (npos + 1) (m.store .name npos c)

/-- The name of an entry, decoded into `name`. -/
def decodeName (offset : ℕ) (m : Mount) : Mount :=
  let (npos, m) := copyPart offset 8 0 0 m
  let ext := m.buffers .clusterBuf (offset + 8)
  let m := m.touch .clusterBuf [offset + 8]
  let (npos, m) :=
    if ext ≠ space then copyPart (offset + 8) 3 0 (npos + 1) (m.store .name npos dot)
    else (npos, m)
  m.store .name npos 0

/-- The loop that copies the mountpoint to `path`. -/
def copyMountpoint : List UInt8 → ℕ → Mount → ℕ × Mount
  | [], p, m => (p, m)
  | c :: mountpoint, p, m =>
    if c ≠ 0 ∧ p + 1 < Buffer.path.size then copyMountpoint mountpoint (p + 1) (m.store .path p c)
    else (p, m)

/-- The loop that copies `name` to `path`; `p` grows with every iteration, so it ends within
the given number of iterations when that is the size of `path`. -/
def copyName : ℕ → ℕ → ℕ → Mount → ℕ × Mount
  | 0, _, p, m => (p, m)
  | n + 1, i, p, m =>
    let c := m.buffers .name i
    let m := m.touch .name [i]
    if c ≠ 0 ∧ p + 1 < Buffer.path.size then copyName n (i + 1) (p + 1) (m.store .path p c)
    else (p, m)

/-- The mountpoint, a slash and the name, joined in `path`. -/
def joinPath (mountpoint : List UInt8) (m : Mount) : Mount :=
  let (p, m) := copyMountpoint mountpoint 0 m
  let (p, m) := if p + 1 < Buffer.path.size then (p + 1, m.store .path p slash) else (p, m)
  let (p, m) := copyName Buffer.path.size 0 p m
  m.store .path p 0

/-! ## Files -/

/-- `copy`: a cluster, but no more than is left of the file or of `file_buf`. -/
def copySize (boot : Boot) (bytesLeft written : ℕ) : ℕ :=
  let copy := boot.clusterSize
  let copy := if copy > bytesLeft then bytesLeft else copy
  if copy > Buffer.fileBuf.size - written then Buffer.fileBuf.size - written else copy

/-- `for (i = 0; i < copy; ++i) file_buf[written + i] = cluster_buf[i];` -/
def copyCluster (written copy : ℕ) (m : Mount) : Mount :=
  forLoop copy (fun i m =>
    (m.touch .clusterBuf [i]).store .fileBuf (written + i) (m.buffers .clusterBuf i)) m

/-- `entry` before it is masked. -/
def fatEntry (offset : ℕ) (m : Mount) : UInt32 × Mount :=
  (readU32 (m.buffers .fatSectorBuf) offset,
    m.touch .fatSectorBuf [offset, offset + 1, offset + 2, offset + 3])

/-- The loop that reads the clusters of a file, with a bound on its iterations: the number of
bytes written to `file_buf`. -/
def readChain (dev : Device) (boot : Boot) : ℕ → UInt32 → ℕ → ℕ → Mount → ℕ × Mount
  | 0, _, _, written, m => (written, m)
  | fuel + 1, cluster, bytesLeft, written, m =>
    if bytesLeft > 0 ∧ written < Buffer.fileBuf.size then
      let (ok, m) := blockRead dev (boot.sectorOfCluster cluster) .clusterBuf
        boot.sectorsPerCluster.toNat m
      if !ok then (written, m.write "fat32: failed to read file cluster\n")
      else
        let copy := copySize boot bytesLeft written
        let m := copyCluster written copy m
        let written := written + copy
        let bytesLeft := bytesLeft - copy
        let (ok, m) := blockRead dev (boot.fatSector cluster) .fatSectorBuf 1 m
        if !ok then (written, m.write "fat32: failed to read FAT sector\n")
        else
          let (entry, m) := fatEntry (boot.fatSectorOffset cluster).toNat m
          let entry := entry &&& 0x0fffffff
          if entry ≥ 0x0ffffff8 then (written, m)
          else if entry = 0 then (written, m)
          else readChain dev boot fuel entry bytesLeft written m
    else (written, m)

/-- A bound on the loop over the clusters of a file: one round for each byte of `file_buf`. -/
abbrev chainFuel : ℕ := 4096

def importEmpty (mountpoint : List UInt8) (m : Mount) : Mount :=
  let m := joinPath mountpoint m
  { m with vfs := (createFile m.vfs m.pathString).2 }

def importFile (dev : Device) (boot : Boot) (mountpoint : List UInt8)
    (startCluster filesize : UInt32) (m : Mount) : Mount :=
  if boot.bytesPerSector.toNat > Buffer.fatSectorBuf.size then
    m.write "fat32: unsupported sector size for FAT read\n"
  else
    let (written, m) := readChain dev boot chainFuel startCluster filesize.toNat 0 m
    let m := joinPath mountpoint m
    let (ok, vfs) := createFile m.vfs m.pathString
    let m := { m with vfs := vfs }
    if !ok then m.write "fat32: failed to create file in VFS\n"
    else
      let (ok, vfs) :=
        writeFile m.vfs m.pathString (some (m.buffers .fileBuf)) (UInt64.ofNat written)
      let m := { m with vfs := vfs }
      if !ok then m.write "fat32: failed to write file in VFS\n" else m

/-- `start_cluster` of the entry at an offset. -/
def startCluster (p : Mem UInt8) (offset : ℕ) : UInt32 :=
  ((readU16 p (offset + 20)).toUInt32 <<< 16) ||| (readU16 p (offset + 26)).toUInt32

/-- `filesize` of the entry at an offset. -/
def filesize (p : Mem UInt8) (offset : ℕ) : UInt32 := readU32 p (offset + 28)

/-- The body of the loop over the directory, and whether the loop goes on. -/
def importEntry (dev : Device) (boot : Boot) (mountpoint : List UInt8) (offset : ℕ) (m : Mount) :
    Bool × Mount :=
  let first := m.buffers .clusterBuf offset
  let m := m.touch .clusterBuf [offset]
  if first = 0x00 then (false, m)
  else if first = 0xe5 then (true, m)
  else
    let attr := m.buffers .clusterBuf (offset + 11)
    let m := m.touch .clusterBuf [offset + 11]
    if attr &&& 0x08 ≠ 0 then (true, m)
    else if attr &&& 0x0f ≠ 0 then (true, m)
    else
      let m := decodeName offset m
      let p := m.buffers .clusterBuf
      let m := m.touch .clusterBuf [offset + 20, offset + 21, offset + 26, offset + 27,
        offset + 28, offset + 29, offset + 30, offset + 31]
      if filesize p offset = 0 then (true, importEmpty mountpoint m)
      else (true, importFile dev boot mountpoint (startCluster p offset) (filesize p offset) m)

/-- The loop over the directory, from the offsets that are left. -/
def importEntries (dev : Device) (boot : Boot) (mountpoint : List UInt8) : List ℕ → Mount → Mount
  | [], m => m
  | offset :: offsets, m =>
    let (goOn, m) := importEntry dev boot mountpoint offset m
    if goOn then importEntries dev boot mountpoint offsets m else m

/-- `for (offset = 0; offset + 32 <= size; offset += 32)` -/
def entryOffsets (size : ℕ) : List ℕ := (List.range (size / 32)).map (32 * ·)

/-- The part that makes sure that the mountpoint exists. -/
def ensureMountpoint (mountpoint : List UInt8) (m : Mount) : Bool × Mount :=
  if !exists' m.vfs mountpoint then
    let (ok, vfs) := createDir m.vfs mountpoint
    (ok, { m with vfs := vfs })
  else (true, m)

/-- The part of `fat32_mount` after the boot sector has been read. -/
def mountBoot (dev : Device) (boot : Boot) (mountpoint : List UInt8) (m : Mount) : Bool × Mount :=
  if boot.bytesPerSector = 0 then (false, m.write "fat32: invalid bytes per sector\n")
  else
    let (ok, m) := ensureMountpoint mountpoint m
    if !ok then (false, m.write "fat32: failed to create mountpoint\n")
    else if boot.clusterSize > Buffer.clusterBuf.size then
      (false, m.write "fat32: cluster too large\n")
    else
      let (ok, m) := blockRead dev (boot.sectorOfCluster boot.rootCluster) .clusterBuf
        boot.sectorsPerCluster.toNat m
      if !ok then (false, m.write "fat32: failed to read root cluster\n")
      else
        let m := importEntries dev boot mountpoint (entryOffsets boot.clusterSize) m
        (true, m.write "fat32: mounted\n")

/-- `fat32_mount` -/
def fat32Mount (dev : Device) (mountpoint : List UInt8) (m : Mount) : Bool × Mount :=
  if !dev.found then (false, m.write "fat32: device not found\n")
  else
    let (ok, m) := blockRead dev 0 .sector 1 m
    if !ok then (false, m.write "fat32: failed to read boot sector\n")
    else
      let boot := bootOf (m.buffers .sector)
      let m := m.touch .sector [11, 12, 13, 14, 15, 16, 36, 37, 38, 39, 44, 45, 46, 47]
      mountBoot dev boot mountpoint m

end Wnu.Fat32
