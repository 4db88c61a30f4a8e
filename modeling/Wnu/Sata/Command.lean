import Wnu.Memory.LittleEndian
import Wnu.Memory.Parts

/-! # The command that is handed to the controller

A read is described to the controller by a command header and a command table, two
arrays in memory that it reads by its own layout. The table holds the command with the
sectors and an entry with the buffer. The header should point to the table and say that
it has one entry.
-/

namespace Wnu.Sata

open Memory

/-- `*((uint32_t *)&p[i]) = v;` -/
def store32 (p : Mem UInt8) (i : ℕ) (v : UInt32) : Mem UInt8 := storeLE p i 4 v.toNat

/-- `memset(p, 0, n)` -/
def clear (p : Mem UInt8) (n : ℕ) : Mem UInt8 := copyLoop p 0 (fun _ => 0) n

def lowHalf (address : UInt64) : UInt32 := (address &&& 0xffffffff).toUInt32

def highHalf (address : UInt64) : UInt32 := ((address >>> 32) &&& 0xffffffff).toUInt32

/-- What `sata_block_read` makes of `sata_cmd_list`. -/
def commandHeader (ch : Mem UInt8) (ctba : UInt64) : Mem UInt8 :=
  let ch := clear ch 1024
  let ch := Function.update ch 0 5
  let ch := Function.update ch 1 0
  let ch := Function.update ch 2 0
  let ch := Function.update ch 3 0
  let ch := Function.update ch 4 1
  let ch := store32 ch 0x18 (lowHalf ctba)
  store32 ch 0x1c (highHalf ctba)

/-- What `sata_block_read` makes of `sata_cmd_table`. -/
def commandTable (ct : Mem UInt8) (lba count bufPhys : UInt64) : Mem UInt8 :=
  let ct := clear ct 256
  let ct := Function.update ct 0 0x27
  let ct := Function.update ct 1 ((1 : UInt32) <<< 7).toUInt8
  let ct := Function.update ct 2 0x25
  let ct := Function.update ct 4 (lba &&& 0xff).toUInt8
  let ct := Function.update ct 5 ((lba >>> 8) &&& 0xff).toUInt8
  let ct := Function.update ct 6 ((lba >>> 16) &&& 0xff).toUInt8
  let ct := Function.update ct 8 ((lba >>> 24) &&& 0xff).toUInt8
  let ct := Function.update ct 9 ((lba >>> 32) &&& 0xff).toUInt8
  let ct := Function.update ct 10 ((lba >>> 40) &&& 0xff).toUInt8
  let ct := Function.update ct 12 (count &&& 0xff).toUInt8
  let ct := Function.update ct 13 ((count >>> 8) &&& 0xff).toUInt8
  let ct := store32 ct 0x80 (lowHalf bufPhys)
  let ct := store32 ct 0x84 (highHalf bufPhys)
  let dbc := (count * 512 - 1).toUInt32
  store32 ct 0x8c (dbc ||| 0x80000000)

/-! ## The layout of the controller -/

structure Command where
  entries : ℕ
  table : ℕ
  fisType : UInt8
  isCommand : Bool
  opcode : UInt8
  lba : ℕ
  sectors : ℕ
  buffer : ℕ
  bytes : ℕ
  deriving DecidableEq

/-- The header has the number of entries in the bytes 2 and 3 and the address of the table in
the bytes 8 to 15. In the table, the command has the sector number in the bytes 4 to 6 and 8
to 10 and the sector count in the bytes 12 and 13, and the first entry, at 0x80, has the
address of the buffer and in its last word the byte count less one, in 22 bits. -/
def decode (header table : Mem UInt8) : Command where
  entries := loadLE header 2 2
  table := loadLE header 8 8
  fisType := table 0
  isCommand := decide (table 1 &&& 0x80 ≠ 0)
  opcode := table 2
  lba := loadLE table 4 3 + 2 ^ 24 * loadLE table 8 3
  sectors := loadLE table 12 2
  buffer := loadLE table 0x80 8
  bytes := loadLE table 0x8c 4 % 2 ^ 22 + 1

/-- READ DMA EXT of sectors into a buffer, described by one entry of a table. -/
def readDmaExt (lba count : ℕ) (bufPhys ctba : UInt64) : Command where
  entries := 1
  table := ctba.toNat
  fisType := 0x27
  isCommand := true
  opcode := 0x25
  lba := lba
  sectors := count
  buffer := bufPhys.toNat
  bytes := count * 512

/-! ## What is decoded -/

theorem toNat_lowHalf (address : UInt64) : (lowHalf address).toNat = address.toNat % 2 ^ 32 := by
  have hlow : (address &&& 0xffffffff).toNat = address.toNat % 2 ^ 32 :=
    toNat_low64 address rfl
  rw [lowHalf, UInt64.toNat_toUInt32, hlow, Nat.mod_mod]

theorem toNat_highHalf (address : UInt64) : (highHalf address).toNat = address.toNat / 2 ^ 32 := by
  have hlt := address.toNat_lt
  have hmask : (0xffffffff : UInt64).toNat = 2 ^ 32 - 1 := rfl
  have hshift : (address >>> 32).toNat = address.toNat / 2 ^ 32 := toNat_high64 address rfl
  rw [highHalf, UInt64.toNat_toUInt32, toNat_low64 _ hmask, hshift]
  omega

theorem loadLE_halves (p : Mem UInt8) (i : ℕ) (address : UInt64) :
    loadLE (store32 (store32 p i (lowHalf address)) (i + 4) (highHalf address)) i 8 =
      address.toNat := by
  have hlow : loadLE (store32 (store32 p i (lowHalf address)) (i + 4) (highHalf address)) i 4 =
      address.toNat % 2 ^ 32 := by
    rw [store32, loadLE_storeLE_of_disjoint (.inl (by omega)), store32, loadLE_storeLE,
      toNat_lowHalf]
    omega
  have hhigh : loadLE (store32 (store32 p i (lowHalf address)) (i + 4) (highHalf address))
      (i + 4) 4 = address.toNat / 2 ^ 32 := by
    have hlt := address.toNat_lt
    rw [store32, loadLE_storeLE, toNat_highHalf]
    omega
  rw [show 8 = 4 + 4 from rfl, loadLE_add, hlow, hhigh]
  omega

theorem loadLE_clear {size i n : ℕ} (h : i + n ≤ size) (p : Mem UInt8) :
    loadLE (clear p size) i n = 0 :=
  loadLE_eq_zero fun j hj => by rw [clear, copyLoop_apply, if_pos (by omega)]

/-- The number of entries is left at zero: the one is stored in the byte 4. -/
theorem loadLE_commandHeader_entries (ch : Mem UInt8) (ctba : UInt64) :
    loadLE (commandHeader ch ctba) 2 2 = 0 := by
  simp only [commandHeader, store32]
  rw [loadLE_storeLE_of_disjoint (.inl (by omega)), loadLE_storeLE_of_disjoint (.inl (by omega)),
    loadLE_update_of_ne (.inr (by omega)), show 2 = 1 + 1 from rfl, loadLE_add, loadLE_one,
    loadLE_one]
  simp [Function.update]

/-- The address of the table is left at zero: it is stored in the bytes 24 to 31. -/
theorem loadLE_commandHeader_table (ch : Mem UInt8) (ctba : UInt64) :
    loadLE (commandHeader ch ctba) 8 8 = 0 := by
  simp only [commandHeader, store32]
  rw [loadLE_storeLE_of_disjoint (.inl (by omega)), loadLE_storeLE_of_disjoint (.inl (by omega))]
  simp only [loadLE_update_of_ne, Nat.reduceLT, true_or]
  exact loadLE_clear (by omega) ch

theorem toNat_byte (x : UInt64) : (x &&& 0xff).toUInt8.toNat = x.toNat % 256 := by
  have hlow : (x &&& 0xff).toNat = x.toNat % 2 ^ 8 := toNat_low64 x rfl
  rw [UInt64.toNat_toUInt8, hlow]
  omega

theorem toNat_shifted_byte (x : UInt64) {k : UInt64} (hk : k.toNat < 64) :
    ((x >>> k) &&& 0xff).toUInt8.toNat = x.toNat / 2 ^ k.toNat % 256 := by
  rw [toNat_byte, toNat_high64 x (Nat.mod_eq_of_lt hk)]

variable (ct : Mem UInt8) (lba count bufPhys : UInt64)

theorem commandTable_apply :
    window (commandTable ct lba count bufPhys) 14 = [0x27, 0x80, 0x25, 0,
      (lba &&& 0xff).toUInt8, ((lba >>> 8) &&& 0xff).toUInt8, ((lba >>> 16) &&& 0xff).toUInt8, 0,
      ((lba >>> 24) &&& 0xff).toUInt8, ((lba >>> 32) &&& 0xff).toUInt8,
      ((lba >>> 40) &&& 0xff).toUInt8, 0, (count &&& 0xff).toUInt8,
      ((count >>> 8) &&& 0xff).toUInt8] := by
  have hflag : ((1 : UInt32) <<< 7).toUInt8 = 0x80 := rfl
  simp [window, List.range_succ, commandTable, store32, storeLE_apply, Function.update, clear,
    copyLoop_apply, hflag]

theorem commandTable_byte {k : ℕ} (hk : k < 14) : commandTable ct lba count bufPhys k =
    [0x27, 0x80, 0x25, 0,
      (lba &&& 0xff).toUInt8, ((lba >>> 8) &&& 0xff).toUInt8, ((lba >>> 16) &&& 0xff).toUInt8, 0,
      ((lba >>> 24) &&& 0xff).toUInt8, ((lba >>> 32) &&& 0xff).toUInt8,
      ((lba >>> 40) &&& 0xff).toUInt8, 0, (count &&& 0xff).toUInt8,
      ((count >>> 8) &&& 0xff).toUInt8].getD k 0 := by
  rw [← commandTable_apply ct lba count bufPhys, window, List.getD_eq_getElem?_getD,
    List.getElem?_map, List.getElem?_range hk]
  rfl

theorem loadLE_three (p : Mem UInt8) (i : ℕ) : loadLE p i 3 =
    (p i).toNat + 256 * (p (i + 1)).toNat + 65536 * (p (i + 2)).toNat := by
  rw [show 3 = 1 + 1 + 1 from rfl, loadLE_add, loadLE_add, loadLE_one, loadLE_one, loadLE_one]
  rfl

theorem loadLE_commandTable_lba (h : lba.toNat < 2 ^ 48) :
    loadLE (commandTable ct lba count bufPhys) 4 3 +
      2 ^ 24 * loadLE (commandTable ct lba count bufPhys) 8 3 = lba.toNat := by
  have hbyte (k : ℕ) (hk : k < 14) := commandTable_byte ct lba count bufPhys hk
  rw [loadLE_three, loadLE_three, hbyte 4 (by decide), hbyte (4 + 1) (by decide),
    hbyte (4 + 2) (by decide), hbyte 8 (by decide), hbyte (8 + 1) (by decide),
    hbyte (8 + 2) (by decide)]
  simp only [List.getD_cons_succ, List.getD_cons_zero, Nat.reduceAdd]
  rw [toNat_byte, toNat_shifted_byte lba (by decide), toNat_shifted_byte lba (by decide),
    toNat_shifted_byte lba (by decide), toNat_shifted_byte lba (by decide),
    toNat_shifted_byte lba (by decide)]
  simp only [UInt64.reduceToNat]
  omega

theorem loadLE_commandTable_count (h : count.toNat < 2 ^ 16) :
    loadLE (commandTable ct lba count bufPhys) 12 2 = count.toNat := by
  have hbyte (k : ℕ) (hk : k < 14) := commandTable_byte ct lba count bufPhys hk
  rw [show 2 = 1 + 1 from rfl, loadLE_add, loadLE_one, loadLE_one, hbyte 12 (by decide),
    hbyte (12 + 1) (by decide)]
  simp only [List.getD_cons_succ, List.getD_cons_zero, Nat.reduceAdd]
  rw [toNat_byte, toNat_shifted_byte count (by decide)]
  simp only [UInt64.reduceToNat]
  omega

theorem loadLE_commandTable_buffer :
    loadLE (commandTable ct lba count bufPhys) 0x80 8 = bufPhys.toNat := by
  simp only [commandTable]
  rw [store32, loadLE_storeLE_of_disjoint (.inl (by omega))]
  exact loadLE_halves _ 0x80 bufPhys

theorem loadLE_commandTable_bytes (h : 0 < count.toNat) (hmax : count.toNat ≤ 8192) :
    loadLE (commandTable ct lba count bufPhys) 0x8c 4 % 2 ^ 22 + 1 = count.toNat * 512 := by
  have hdbc : (count * 512 - 1).toUInt32.toNat = count.toNat * 512 - 1 := by
    have h1 : (1 : UInt64).toNat = 1 := rfl
    have h512 : (512 : UInt64).toNat = 512 := rfl
    have hmul : (count * 512).toNat = count.toNat * 512 := by
      rw [UInt64.toNat_mul, h512]
      exact Nat.mod_eq_of_lt (by omega)
    have hle : (1 : UInt64) ≤ count * 512 := by
      rw [UInt64.le_iff_toNat_le, hmul, h1]
      omega
    rw [UInt64.toNat_toUInt32, UInt64.toNat_sub_of_le _ _ hle, hmul, h1]
    omega
  simp only [commandTable]
  rw [store32, loadLE_storeLE, UInt32.toNat_or, hdbc]
  have hflag : (0x80000000 : UInt32).toNat = 2 ^ 31 := rfl
  rw [hflag, Nat.mod_mod_of_dvd _ (by decide), Nat.or_mod_two_pow]
  have hzero : 2 ^ 31 % 2 ^ 22 = 0 := by decide
  rw [hzero, Nat.or_zero, Nat.mod_eq_of_lt (by omega)]
  omega

/-- The controller reads the command, the buffer and the sectors as they should be, but no
entry and the address zero for the table. -/
theorem decode_command (ch : Mem UInt8) (ctba : UInt64) (hlba : lba.toNat < 2 ^ 48)
    (hpos : 0 < count.toNat) (hmax : count.toNat ≤ 8192) :
    decode (commandHeader ch ctba) (commandTable ct lba count bufPhys) =
      { readDmaExt lba.toNat count.toNat bufPhys ctba with entries := 0, table := 0 } := by
  have hbyte (k : ℕ) (hk : k < 14) := commandTable_byte ct lba count bufPhys hk
  simp only [decode, readDmaExt, loadLE_commandHeader_entries, loadLE_commandHeader_table,
    loadLE_commandTable_lba ct lba count bufPhys hlba,
    loadLE_commandTable_count ct lba count bufPhys (by omega), loadLE_commandTable_buffer,
    loadLE_commandTable_bytes ct lba count bufPhys hpos hmax, hbyte 0 (by decide),
    hbyte 1 (by decide), hbyte 2 (by decide), List.getD_cons_succ, List.getD_cons_zero]
  rfl

end Wnu.Sata
