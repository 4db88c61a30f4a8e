import Wnu.Fat32.Paths
import Wnu.Fat32.Volume

/-! # Directories of plain files

The root directory of a volume that holds plain files only, and what it takes for
another cluster to be read like it at an entry. The mount reads file clusters into
the array that holds the directory, so after a file with contents the entries that
follow are read from the last cluster of that file.
-/

namespace Wnu.Fat32

open Text Memory Vfs

variable {p q r : Mem UInt8} {offset size : ℕ}

def LegalName (name : List UInt8) : Prop := name ≠ [] ∧ ∀ c ∈ name, c ≠ 0 ∧ c ≠ slash

/-- An entry in use that is a plain file. -/
structure PlainEntry (p : Mem UInt8) (offset : ℕ) : Prop where
  first : p offset ≠ 0x00 ∧ p offset ≠ 0xe5
  attr : p (offset + 11) = 0x00 ∨ p (offset + 11) = 0x20
  name : LegalName (shortName p offset)

instance (name : List UInt8) : Decidable (LegalName name) := inferInstanceAs (Decidable (_ ∧ _))

instance : Decidable (PlainEntry p offset) :=
  decidable_of_iff ((p offset ≠ 0x00 ∧ p offset ≠ 0xe5) ∧
    (p (offset + 11) = 0x00 ∨ p (offset + 11) = 0x20) ∧ LegalName (shortName p offset))
    ⟨fun h => ⟨h.1, h.2.1, h.2.2⟩, fun h => ⟨h.first, h.attr, h.name⟩⟩

/-- The two clusters are read as the same entry. -/
structure SameEntry (p q : Mem UInt8) (offset : ℕ) : Prop where
  kind : entryKind p offset = entryKind q offset
  name : shortName p offset = shortName q offset
  size : filesize p offset = filesize q offset
  start : entryKind q offset = .file → startCluster p offset = startCluster q offset

instance : Decidable (SameEntry p q offset) :=
  decidable_of_iff (entryKind p offset = entryKind q offset ∧
    shortName p offset = shortName q offset ∧ filesize p offset = filesize q offset ∧
    (entryKind q offset = .file → startCluster p offset = startCluster q offset))
    ⟨fun h => ⟨h.1, h.2.1, h.2.2.1, h.2.2.2⟩, fun h => ⟨h.kind, h.name, h.size, h.start⟩⟩

theorem SameEntry.trans (h : SameEntry p q offset) (h' : SameEntry q r offset) :
    SameEntry p r offset :=
  ⟨h.kind.trans h'.kind, h.name.trans h'.name, h.size.trans h'.size,
    fun hr => (h.start (h'.kind.trans hr)).trans (h'.start hr)⟩

theorem field_congr {i n : ℕ} (h : ∀ j, i ≤ j → j < i + n → p j = q j) :
    field p i n = field q i n := by
  have hw : window (fun j => p (i + j)) n = window (fun j => q (i + j)) n :=
    window_congr fun j hj => h (i + j) (by omega) (by omega)
  rw [field, hw, field]

theorem sameEntry_of_agree (h : ∀ j < size, p j = q j) (ho : offset + 32 ≤ size) :
    SameEntry p q offset := by
  have hsize : filesize p offset = filesize q offset := by
    simp only [filesize, readU32, h _ (show offset + 28 < size by omega),
      h _ (show offset + 28 + 1 < size by omega), h _ (show offset + 28 + 2 < size by omega),
      h _ (show offset + 28 + 3 < size by omega)]
  refine ⟨?_, ?_, hsize, fun _ => ?_⟩
  · simp only [entryKind, hsize, h _ (show offset < size by omega),
      h _ (show offset + 11 < size by omega)]
  · rw [shortName, shortName, field_congr fun j _ hj => h j (by omega),
      field_congr (i := offset + 8) fun j _ hj => h j (by omega), h (offset + 8) (by omega)]
  · simp only [startCluster, readU16, h _ (show offset + 20 < size by omega),
      h _ (show offset + 20 + 1 < size by omega), h _ (show offset + 26 < size by omega),
      h _ (show offset + 26 + 1 < size by omega)]

theorem PlainEntry.kind (h : PlainEntry p offset) :
    entryKind p offset = if filesize p offset = 0 then .empty else .file := by
  have h8 : p (offset + 11) &&& 0x08 = 0 := by
    rcases h.attr with ha | ha <;> rw [ha] <;> decide
  have hf : p (offset + 11) &&& 0x0f = 0 := by
    rcases h.attr with ha | ha <;> rw [ha] <;> decide
  simp [entryKind, h.first.1, h.first.2, h8, hf]

/-! ## The root directory -/

variable (image : Mem UInt8) (j : ℕ)

def entryName : List UInt8 := shortName (rootBytes image) (32 * j)

def entryStart : ℕ := (startCluster (rootBytes image) (32 * j)).toNat

def entrySize : ℕ := (filesize (rootBytes image) (32 * j)).toNat

def entryContents : List UInt8 := fileContents image (entryStart image j) (entrySize image j)

def lastBytes : Mem UInt8 :=
  clusterBytes image (lastCluster image (entryStart image j) (entrySize image j))

/-- The cluster that an entry is read from, when all entries before it were read as the
directory has them. -/
def readFrom : ℕ → Mem UInt8
  | 0 => rootBytes image
  | j + 1 => if entrySize image j = 0 then readFrom j else lastBytes image j

variable {image}

/-- A volume with sectors of 512 bytes, clusters that fit `cluster_buf`, and a number of
plain files in the first cluster of the root directory, each with a chain of clusters that
is long enough for what is imported of it. -/
structure Importable (image : Mem UInt8) (k : ℕ) : Prop where
  sectorSize : (bootOf image).bytesPerSector = 512
  clusterSize_le : (bootOf image).clusterSize ≤ 8192
  root : InVolume image (bootOf image).rootCluster.toNat
  fits : 32 * k ≤ (bootOf image).clusterSize
  plain : ∀ j < k, PlainEntry (rootBytes image) (32 * j)
  distinct : ∀ i < k, ∀ j < k, entryName image i = entryName image j → i = j
  ended : 32 * k + 32 ≤ (bootOf image).clusterSize → rootBytes image (32 * k) = 0
  chains : ∀ j < k, ∀ i, i * (bootOf image).clusterSize < min (entrySize image j) 4096 →
    InVolume image (chain image (entryStart image j) i)

/-! ## How the directory is read -/

variable {i : ℕ}

def offsetsFrom (size i : ℕ) : List ℕ := (List.range' i (size / 32 - i)).map (32 * ·)

theorem offsetsFrom_zero (size : ℕ) : offsetsFrom size 0 = entryOffsets size := by
  rw [offsetsFrom, entryOffsets, Nat.sub_zero, List.range_eq_range']

theorem offsetsFrom_of_le (h : 32 * i + 32 ≤ size) :
    offsetsFrom size i = 32 * i :: offsetsFrom size (i + 1) := by
  obtain ⟨n, hn⟩ : ∃ n, size / 32 - i = n + 1 := ⟨size / 32 - (i + 1), by omega⟩
  have hn' : size / 32 - (i + 1) = n := by omega
  rw [offsetsFrom, offsetsFrom, hn, hn', List.range'_succ, List.map_cons]

theorem add_le_of_mem_offsetsFrom (h : offset ∈ offsetsFrom size i) : offset + 32 ≤ size := by
  obtain ⟨j, hj, rfl⟩ := List.mem_map.mp h
  have hmem := List.mem_range'_1.mp hj
  omega

/-- The entries before `i` are read as the directory has them. -/
def ReadsUpTo (image : Mem UInt8) (i : ℕ) : Prop :=
  ∀ j < i, SameEntry (readFrom image j) (rootBytes image) (32 * j)

/-- The place of the first entry that is not skipped, from the entry `i` on and in the
cluster that it is read from. -/
def nextEntry (image : Mem UInt8) (i : ℕ) : Option ℕ :=
  (offsetsFrom (bootOf image).clusterSize i).find? fun offset =>
    entryKind (readFrom image i) offset ≠ .skipped

/-- The directory is read up to its end: every file with contents ends in a cluster that is
read like the rest of the directory up to the next such file. -/
structure Undisturbed (image : Mem UInt8) (k : ℕ) : Prop where
  entries : ReadsUpTo image k
  ended : ∀ offset ∈ nextEntry image k, entryKind (readFrom image k) offset = .last

/-- The entry `i` is the first that is not read as the directory has it, or follows the last. -/
structure LeavesAt (image : Mem UInt8) (k i : ℕ) : Prop where
  le : i ≤ k
  before : ReadsUpTo image i
  differs : i < k → ¬ SameEntry (readFrom image i) (rootBytes image) (32 * i)

/-- Where the directory is left, the next entry is a file whose name cannot stand in a path
or is that of a file of the directory. -/
def Echoes (image : Mem UInt8) (k : ℕ) : Prop :=
  ∃ i, LeavesAt image k i ∧ ∃ offset ∈ nextEntry image i,
    entryKind (readFrom image i) offset ≠ .last ∧
    (¬ LegalName (text (shortName (readFrom image i) offset)) ∨
      ∃ j < k, text (shortName (readFrom image i) offset) = entryName image j)

theorem exists_leavesAt (image : Mem UInt8) (k : ℕ) : ∃ i, LeavesAt image k i := by
  induction k with
  | zero =>
    exact ⟨0, le_rfl, fun j hj => absurd hj (Nat.not_lt_zero j),
      fun h => absurd h (Nat.lt_irrefl 0)⟩
  | succ k ih =>
    obtain ⟨i, hi⟩ := ih
    rcases Nat.lt_or_eq_of_le hi.le with hlt | rfl
    · exact ⟨i, by omega, hi.before, fun _ => hi.differs hlt⟩
    by_cases hs : SameEntry (readFrom image i) (rootBytes image) (32 * i)
    · refine ⟨i + 1, le_rfl, fun j hj => ?_, fun h => absurd h (Nat.lt_irrefl _)⟩
      rcases Nat.lt_succ_iff_lt_or_eq.mp hj with hlt | rfl
      · exact hi.before j hlt
      · exact hs
    · exact ⟨i, Nat.le_succ i, hi.before, fun _ => hs⟩

end Wnu.Fat32
