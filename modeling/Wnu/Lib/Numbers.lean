import Wnu.Memory.Bytes
import Wnu.Text.Numerals

/-! # Printed numbers

The digits of a number come lowest first. They are kept in a buffer, which is then gone
through from its end.
-/

namespace Wnu.Lib

open Memory Text

/-- A base that a number can be divided by until nothing is left of it. -/
abbrev Base := {base : UInt32 // 1 < base.toNat}

def decimal : Base := ⟨10, by decide⟩

def hexadecimal : Base := ⟨16, by decide⟩

/-- `buffer` and `i` in `print_unsigned_base`, and the indices of `buffer` that have been used. -/
structure Digits where
  buffer : Mem UInt8
  i : ℕ
  used : List ℕ

/-- What is printed, and the indices of `buffer` that have been used. -/
structure Output where
  text : List UInt8
  used : List ℕ

/-- `buffer[i++] = c;` -/
def Digits.push (c : UInt8) (d : Digits) : Digits where
  buffer := Function.update d.buffer d.i c
  i := d.i + 1
  used := d.i :: d.used

def charOf (digit : UInt64) : UInt8 :=
  if digit < 10 then (48 + digit).toUInt8 else (97 + digit - 10).toUInt8

theorem toNat_div_lt {value : UInt64} (h : value > 0) (base : Base) :
    (value / base.val.toUInt64).toNat < value.toNat := by
  rw [UInt64.toNat_div, UInt32.toNat_toUInt64]
  exact Nat.div_lt_self (UInt64.lt_iff_toNat_lt.mp h) base.property

/-- `while (value > 0) { … }` -/
def generate (base : Base) (value : UInt64) (d : Digits) : Digits :=
  if _ : value > 0 then
    generate base (value / base.val.toUInt64) (d.push (charOf (value % base.val.toUInt64)))
  else d
termination_by value.toNat
decreasing_by exact toNat_div_lt ‹_› base

/-- `while (i > 0) { wnu_console_putchar(buffer[--i]); }` -/
def emit (buffer : Mem UInt8) : ℕ → Output → Output
  | 0, o => o
  | i + 1, o => emit buffer i ⟨o.text ++ [buffer i], i :: o.used⟩

/-- `print_unsigned_base` -/
def printUnsignedBase (buffer : Mem UInt8) (value : UInt64) (base : Base) : Output :=
  if value = 0 then ⟨[48], []⟩
  else
    let d := generate base value ⟨buffer, 0, []⟩
    emit d.buffer d.i ⟨[], d.used⟩

/-- `print_signed` -/
def printSigned (buffer : Mem UInt8) (value : Int64) : Output :=
  if value < 0 then
    let o := printUnsignedBase buffer (-value).toUInt64 decimal
    ⟨45 :: o.text, o.used⟩
  else printUnsignedBase buffer value.toUInt64 decimal

/-! ## Digits -/

def digitChar (n : ℕ) : UInt8 := if n < 10 then UInt8.ofNat (48 + n) else UInt8.ofNat (87 + n)

/-- The digit that a character stands for. -/
def digitValue (c : UInt8) : ℕ := if c < 97 then c.toNat - 48 else c.toNat - 87

theorem digitValue_digitChar {n : ℕ} (h : n < 36) : digitValue (digitChar n) = n := by
  revert n
  decide

theorem charOf_eq {digit : UInt64} (h : digit.toNat < 36) :
    charOf digit = digitChar digit.toNat := by
  have hten : digit < 10 ↔ digit.toNat < 10 := UInt64.lt_iff_toNat_lt
  apply UInt8.toNat_inj.mp
  simp only [charOf, digitChar, hten]
  split
  · simp only [UInt64.toNat_toUInt8, UInt64.toNat_add, UInt64.reduceToNat, UInt8.toNat_ofNat']
    omega
  · have hle : (10 : UInt64) ≤ 97 + digit := by
      rw [UInt64.le_iff_toNat_le, UInt64.toNat_add]
      simp only [UInt64.reduceToNat]
      omega
    rw [UInt64.toNat_toUInt8, UInt64.toNat_sub_of_le _ _ hle, UInt64.toNat_add]
    simp only [UInt64.reduceToNat, UInt8.toNat_ofNat']
    omega

/-! ## The buffer -/

variable {base : Base} {value : UInt64} {d : Digits} {o : Output}

theorem window_generate (hbase : base.val.toNat ≤ 36) (value : UInt64) (d : Digits) :
    window (generate base value d).buffer (generate base value d).i =
      window d.buffer d.i ++ (Nat.digits base.val.toNat value.toNat).map digitChar := by
  fun_induction generate base value d with
  | case1 value d hpos ih =>
    have hbase64 : base.val.toUInt64.toNat = base.val.toNat := UInt32.toNat_toUInt64 base.val
    have hdigit : (value % base.val.toUInt64).toNat = value.toNat % base.val.toNat := by
      rw [UInt64.toNat_mod, hbase64]
    have hlt : value.toNat % base.val.toNat < base.val.toNat :=
      Nat.mod_lt _ (Nat.lt_of_succ_lt base.property)
    have hpush : window (d.push (charOf (value % base.val.toUInt64))).buffer
        (d.push (charOf (value % base.val.toUInt64))).i =
          window d.buffer d.i ++ [digitChar (value.toNat % base.val.toNat)] := by
      rw [charOf_eq (by omega), hdigit]
      exact window_update_succ d.buffer d.i _
    rw [ih, hpush, Nat.digits_def' base.property (UInt64.lt_iff_toNat_lt.mp hpos), List.map_cons,
      UInt64.toNat_div, hbase64, List.append_assoc]
    rfl
  | case2 value d hzero =>
    have hvalue : value.toNat = 0 := by
      rwa [gt_iff_lt, UInt64.lt_iff_toNat_lt, UInt64.toNat_zero, Nat.not_lt, Nat.le_zero] at hzero
    rw [hvalue, Nat.digits_zero, List.map_nil, List.append_nil]

theorem i_generate (hbase : base.val.toNat ≤ 36) (value : UInt64) (d : Digits) :
    (generate base value d).i = d.i + (Nat.digits base.val.toNat value.toNat).length := by
  have hlength := congrArg List.length (window_generate hbase value d)
  rwa [length_window, List.length_append, length_window, List.length_map] at hlength

theorem used_generate (base : Base) (value : UInt64) (d : Digits) :
    d.i ≤ (generate base value d).i ∧
      ∀ k ∈ (generate base value d).used, k ∈ d.used ∨ k < (generate base value d).i := by
  fun_induction generate base value d with
  | case1 value d hpos ih =>
    obtain ⟨hle, hused⟩ := ih
    have hlt : d.i < (generate base (value / base.val.toUInt64)
        (d.push (charOf (value % base.val.toUInt64)))).i := hle
    refine ⟨hlt.le, fun k hk => ?_⟩
    rcases hused k hk with hpushed | hcounted
    · rcases List.mem_cons.mp hpushed with rfl | hold
      · exact .inr hlt
      · exact .inl hold
    · exact .inr hcounted
  | case2 value d hzero => exact ⟨Nat.le_refl _, fun k hk => .inl hk⟩

theorem text_emit (buffer : Mem UInt8) (n : ℕ) (o : Output) :
    (emit buffer n o).text = o.text ++ (window buffer n).reverse := by
  induction n generalizing o with
  | zero => rw [emit, window_zero, List.reverse_nil, List.append_nil]
  | succ n ih =>
    rw [emit, ih, window_succ, List.reverse_append, List.append_assoc]
    rfl

theorem used_emit (buffer : Mem UInt8) (n : ℕ) (o : Output) :
    ∀ k ∈ (emit buffer n o).used, k ∈ o.used ∨ k < n := by
  induction n generalizing o with
  | zero => exact fun k hk => .inl hk
  | succ n ih =>
    intro k hk
    rcases ih _ k hk with hstored | hlt
    · rcases List.mem_cons.mp hstored with rfl | hold
      · exact .inr (Nat.lt_succ_self k)
      · exact .inl hold
    · exact .inr (Nat.lt_succ_of_lt hlt)

/-! ## Numbers -/

theorem text_printUnsignedBase (buffer : Mem UInt8) (value : UInt64)
    (hbase : base.val.toNat ≤ 36) :
    (printUnsignedBase buffer value base).text =
      numeral digitChar base.val.toNat value.toNat := by
  rw [printUnsignedBase]
  split
  · rename_i hzero
    rw [hzero]
    rfl
  · rename_i hne
    have hpos : 0 < value.toNat := Nat.pos_of_ne_zero fun h => hne (UInt64.toNat_inj.mp h)
    rw [text_emit, window_generate hbase, window_zero, numeral_of_pos _ _ hpos]
    rfl

theorem length_digits_le (hbase : 10 ≤ base.val.toNat) (value : UInt64) :
    (Nat.digits base.val.toNat value.toNat).length ≤ 20 := by
  apply (Nat.digits_length_le_iff base.property value.toNat).mpr
  calc value.toNat < 2 ^ 64 := value.toNat_lt
    _ ≤ 10 ^ 20 := by decide
    _ ≤ base.val.toNat ^ 20 := Nat.pow_le_pow_left hbase 20

/-- A number of 64 bits has few enough digits for the buffer. -/
theorem used_printUnsignedBase (buffer : Mem UInt8) (value : UInt64)
    (hbase : 10 ≤ base.val.toNat) (hbase' : base.val.toNat ≤ 36) :
    ∀ k ∈ (printUnsignedBase buffer value base).used, k < 32 := by
  intro k hk
  rw [printUnsignedBase] at hk
  split at hk
  · exact absurd hk List.not_mem_nil
  · have hi : (generate base value ⟨buffer, 0, []⟩).i =
        (Nat.digits base.val.toNat value.toNat).length :=
      (i_generate hbase' value ⟨buffer, 0, []⟩).trans (Nat.zero_add _)
    have hlength := length_digits_le hbase value
    rcases used_emit _ _ _ k hk with hstored | hlt
    · rcases (used_generate base value ⟨buffer, 0, []⟩).2 k hstored with hnil | hlt
      · exact absurd hnil List.not_mem_nil
      · omega
    · omega

theorem toNat_toUInt64_of_nonneg {x : Int64} (h : 0 ≤ x.toInt) :
    x.toUInt64.toNat = x.toInt.natAbs := by
  have hle : 0 ≤ x := Int64.le_iff_toInt_le.mpr h
  have hclamp : x.toNatClampNeg = x.toInt.toNat := rfl
  rw [Int64.toNat_toUInt64_of_le hle, hclamp]
  omega

/-- An `int` is not the least number of 64 bits, so its sign can be changed. -/
theorem toInt_neg_toInt64 (value : Int32) : (-value.toInt64).toInt = -value.toInt := by
  have hlt := value.toInt_lt
  have hle := value.le_toInt
  rw [Int64.toInt_neg, Int32.toInt_toInt64]
  apply Int.bmod_eq_of_le <;> omega

theorem text_printSigned (buffer : Mem UInt8) (value : Int32) :
    (printSigned buffer value.toInt64).text =
      if value < 0 then 45 :: numeral digitChar 10 value.toInt.natAbs
      else numeral digitChar 10 value.toInt.natAbs := by
  have hint : value < 0 ↔ value.toInt < 0 := Int32.lt_iff_toInt_lt
  have hsign : value.toInt64 < 0 ↔ value < 0 := by
    rw [Int64.lt_iff_toInt_lt, Int32.toInt_toInt64, hint]
    rfl
  rw [printSigned]
  simp only [hsign]
  split
  · rename_i hneg
    have hnat : (-value.toInt64).toUInt64.toNat = value.toInt.natAbs := by
      have hopposite := toInt_neg_toInt64 value
      have hlt := hint.mp hneg
      rw [toNat_toUInt64_of_nonneg (by omega), hopposite, Int.natAbs_neg]
    rw [text_printUnsignedBase buffer _ (by decide), hnat]
    rfl
  · rename_i hnonneg
    have hnat : value.toInt64.toUInt64.toNat = value.toInt.natAbs := by
      have hle : 0 ≤ value.toInt64.toInt := by
        rw [Int32.toInt_toInt64]
        exact Int.not_lt.mp fun hlt => hnonneg (hint.mpr hlt)
      rw [toNat_toUInt64_of_nonneg hle, Int32.toInt_toInt64]
    rw [text_printUnsignedBase buffer _ (by decide), hnat]
    rfl

theorem minus_notMem_numeral {b n : ℕ} (hb : 1 < b) (hb' : b ≤ 36) :
    45 ∉ numeral digitChar b n := by
  intro hmem
  obtain ⟨d, hd, heq⟩ := exists_of_mem_numeral hb hmem
  have hall : ∀ d < 36, (45 : UInt8) ≠ digitChar d := by decide
  exact hall d (by omega) heq

theorem numeral_injective {b m n : ℕ} (hb : 1 < b) (hb' : b ≤ 36)
    (h : numeral digitChar b m = numeral digitChar b n) : m = n := by
  have hvalue : ∀ d < b, digitValue (digitChar d) = d :=
    fun d hd => digitValue_digitChar (Nat.lt_of_lt_of_le hd hb')
  calc m = readNumeral digitValue b (numeral digitChar b m) :=
        (readNumeral_numeral hb hvalue m).symm
    _ = readNumeral digitValue b (numeral digitChar b n) := by rw [h]
    _ = n := readNumeral_numeral hb hvalue n

theorem printSigned_injective {buffer buffer' : Mem UInt8} {value value' : Int32}
    (h : (printSigned buffer value.toInt64).text = (printSigned buffer' value'.toInt64).text) :
    value = value' := by
  have hminus (n : ℕ) : 45 ∉ numeral digitChar 10 n := minus_notMem_numeral (by decide) (by decide)
  have hint (v : Int32) : v < 0 ↔ v.toInt < 0 := Int32.lt_iff_toInt_lt
  rw [text_printSigned, text_printSigned] at h
  apply Int32.toInt_inj.mp
  split_ifs at h with hneg hneg' hneg'
  · have habs := numeral_injective (by decide) (by decide) (List.cons_inj_right 45 |>.mp h)
    rw [hint] at hneg hneg'
    omega
  · exact absurd (h ▸ List.mem_cons_self) (hminus value'.toInt.natAbs)
  · exact absurd (h ▸ List.mem_cons_self) (hminus value.toInt.natAbs)
  · have habs := numeral_injective (by decide) (by decide) h
    rw [hint] at hneg hneg'
    omega

/-- Numbers are printed without leading zeros, within the buffer, and so that they can be read
back. A minus sign stands before the digits of a negative number and nowhere else. -/
theorem numbers_printed :
    (∀ (buffer : Mem UInt8) (value : UInt64) (base : Base), base = decimal ∨ base = hexadecimal →
      (printUnsignedBase buffer value base).text =
        numeral digitChar base.val.toNat value.toNat ∧
      readNumeral digitValue base.val.toNat (printUnsignedBase buffer value base).text =
        value.toNat ∧
      (value = 0 → (printUnsignedBase buffer value base).text = [48]) ∧
      (value ≠ 0 → (printUnsignedBase buffer value base).text.head? ≠ some 48) ∧
      ∀ k ∈ (printUnsignedBase buffer value base).used, k < 32) ∧
    (∀ (buffer : Mem UInt8) (value : Int32),
      (printSigned buffer value.toInt64).text =
        (if value < 0 then [45] else []) ++ numeral digitChar 10 value.toInt.natAbs ∧
      (45 ∈ (printSigned buffer value.toInt64).text ↔ value < 0)) ∧
    ∀ (buffer buffer' : Mem UInt8) (value value' : Int32),
      (printSigned buffer value.toInt64).text = (printSigned buffer' value'.toInt64).text →
        value = value' := by
  refine ⟨?_, ?_, ?_⟩
  · rintro buffer value base hbase
    have hrange : 10 ≤ base.val.toNat ∧ base.val.toNat ≤ 36 := by
      rcases hbase with rfl | rfl <;> decide
    have hvalue : ∀ d < base.val.toNat, digitValue (digitChar d) = d :=
      fun d hd => digitValue_digitChar (Nat.lt_of_lt_of_le hd hrange.2)
    rw [text_printUnsignedBase buffer value hrange.2]
    refine ⟨rfl, readNumeral_numeral base.property hvalue value.toNat, ?_, ?_,
      used_printUnsignedBase buffer value hrange.1 hrange.2⟩
    · rintro rfl
      rfl
    · intro hne
      have hpos : 0 < value.toNat := Nat.pos_of_ne_zero fun h => hne (UInt64.toNat_inj.mp h)
      exact head?_numeral_ne base.property hvalue hpos
  · rintro buffer value
    rw [text_printSigned]
    have hminus : 45 ∉ numeral digitChar 10 value.toInt.natAbs :=
      minus_notMem_numeral (by decide) (by decide)
    split_ifs with hneg
    · exact ⟨rfl, iff_of_true List.mem_cons_self hneg⟩
    · exact ⟨rfl, iff_of_false hminus hneg⟩
  · rintro buffer buffer' value value' h
    exact printSigned_injective h

end Wnu.Lib
