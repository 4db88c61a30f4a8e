import Wnu.Lib.Printf

/-! # What is printed

The text that a call of `printf` prints of its arguments: numbers, and strings at an
address.
-/

namespace Wnu.Lib

open Text

/-- An argument of `printf`. -/
inductive Arg
  | num (n : ℤ)
  | str (address : UInt64) (s : List UInt8)

def Arg.slot : Arg → UInt64
  | num n => UInt64.ofInt n
  | str address _ => address

def Arg.stringAt (address : UInt64) : Arg → Option (List UInt8)
  | num _ => none
  | str a s => if a = address then some s else none

/-- What `printf` finds of its arguments. -/
def argsOf (args : List Arg) : Args where
  slot k := (args[k]?.map Arg.slot).getD 0
  string a := (args.findSome? (Arg.stringAt a)).getD []
  buffer _ := 0

/-- What a call of `printf` prints. -/
def printed (format : String) (args : List Arg) : List UInt8 :=
  (printf (argsOf args) (ascii format)).flatMap Item.text

/-! ## The text of a format -/

def dec (n : ℕ) : List UInt8 := numeral digitChar 10 n

def hex (n : ℕ) : List UInt8 := numeral digitChar 16 n

/-- The text of what is left of a format, when the next argument is the `k`-th. -/
def textFrom (args : Args) (s : List UInt8) (k : ℕ) : List UInt8 :=
  (printfLoop args s 0 k).flatMap Item.text

variable {args : Args} {s : List UInt8} {k n : ℕ} {c : UInt8}

theorem text_convert (args : Args) (c : UInt8) (i j k : ℕ) :
    (convert args c i k).text = (convert args c j k).text := by
  unfold convert
  split <;> rfl

theorem flatMap_printfLoop (args : Args) (s : List UInt8) (i j k : ℕ) :
    (printfLoop args s i k).flatMap Item.text = (printfLoop args s j k).flatMap Item.text := by
  fun_induction printfLoop args s i k generalizing j with
  | case1 => rfl
  | case2 c s i k hc ih =>
    rw [printfLoop_literal hc, List.flatMap_cons, List.flatMap_cons, ih (j + 1)]
  | case3 c i k hc =>
    obtain rfl : c = 37 := not_not.mp hc
    rfl
  | case4 c i k hc d s item ih =>
    obtain rfl : c = 37 := not_not.mp hc
    rw [printfLoop_percent, List.flatMap_cons, List.flatMap_cons, ih (j + 2),
      text_convert args d (i + 1) (j + 1), convert_argument]
    by_cases htakes : takesArgument d
    · simp only [htakes, if_true, reduceCtorEq, if_false]
    · simp only [htakes, Bool.false_eq_true, if_true, if_false]

theorem textFrom_literals {cs : List UInt8} (hcs : 37 ∉ cs) (s : List UInt8) (k : ℕ) :
    textFrom args (cs ++ s) k = cs ++ textFrom args s k := by
  induction cs with
  | nil => rfl
  | cons c cs ih =>
    obtain ⟨hc, hrest⟩ := List.ne_and_not_mem_of_not_mem_cons hcs
    rw [List.cons_append, textFrom, printfLoop_literal hc.symm, List.flatMap_cons,
      flatMap_printfLoop args (cs ++ s) (0 + 1) 0, ← textFrom, ih hrest]
    rfl

theorem textFrom_last {cs : List UInt8} (hcs : 37 ∉ cs) (k : ℕ) : textFrom args cs k = cs := by
  have hlast : textFrom args (cs ++ []) k = cs ++ [] := textFrom_literals hcs [] k
  rwa [List.append_nil] at hlast

theorem textFrom_percent (args : Args) (c : UInt8) (s : List UInt8) (k : ℕ) :
    textFrom args (37 :: c :: s) k =
      (convert args c 0 k).text ++ textFrom args s (if takesArgument c then k + 1 else k) := by
  rw [textFrom, printfLoop_percent, List.flatMap_cons, text_convert args c (0 + 1) 0,
    flatMap_printfLoop args s (0 + 2) 0, ← textFrom]

theorem textFrom_decimal (s : List UInt8) (k : ℕ) :
    textFrom args (37 :: 117 :: s) k =
      dec (args.slot k).toUInt32.toNat ++ textFrom args s (k + 1) := by
  rw [textFrom_percent]
  exact congrArg (· ++ _) (text_printUnsignedBase args.buffer (args.slot k).toUInt32.toUInt64
    (by decide))

theorem textFrom_hexadecimal (s : List UInt8) (k : ℕ) :
    textFrom args (37 :: 120 :: s) k =
      hex (args.slot k).toUInt32.toNat ++ textFrom args s (k + 1) := by
  rw [textFrom_percent]
  exact congrArg (· ++ _) (text_printUnsignedBase args.buffer (args.slot k).toUInt32.toUInt64
    (by decide))

theorem textFrom_character (s : List UInt8) (k : ℕ) :
    textFrom args (37 :: 99 :: s) k = (args.slot k).toUInt8 :: textFrom args s (k + 1) := by
  rw [textFrom_percent]
  rfl

theorem textFrom_minus (s : List UInt8) (k : ℕ) :
    textFrom args (37 :: 45 :: s) k = ascii "%-" ++ textFrom args s k := by
  rw [textFrom_percent]
  rfl

theorem printed_eq (format : String) (arguments : List Arg)
    (hformat : text (ascii format) = ascii format) :
    printed format arguments = textFrom (argsOf arguments) (ascii format) 0 := by
  rw [printed, printf, hformat, textFrom]

theorem slot_num (h : n < 2 ^ 32) : (Arg.num n).slot.toUInt32.toNat = n := by
  rw [Arg.slot, UInt64.ofInt, UInt64.toNat_toUInt32, UInt64.toNat_ofNat']
  omega

theorem slot_toInt (c : UInt8) : (Arg.num c.toInt8.toInt).slot.toUInt8 = c := by
  apply UInt8.toNat_inj.mp
  have hbmod : c.toInt8.toInt = (c.toNat : ℤ).bmod (2 ^ 8) := by
    rw [Int8.toInt, UInt8.toBitVec_toInt8, BitVec.toInt_eq_toNat_bmod, UInt8.toNat_toBitVec]
  have hlt := c.toNat_lt
  rw [Arg.slot, UInt64.ofInt, UInt64.toNat_toUInt8, UInt64.toNat_ofNat', hbmod, Int.bmod]
  omega

end Wnu.Lib
