import Wnu.Lib.Numbers
import Wnu.Text.CString

/-! # Formatted printing

A format is gone through character by character, and the arguments are taken one after the
other. A conversion is a percent sign and one letter for `printf`. What a flag, a width or a
length modifier starts with is not among the letters, so the rest of such a conversion is
printed and its argument is left for the next one.
-/

namespace Wnu.Lib

open Memory Text

/-- The arguments, a slot of eight bytes for each, the strings at the addresses among them, and
what the buffer of `print_unsigned_base` holds before it is filled. -/
structure Args where
  slot : ℕ → UInt64
  string : UInt64 → List UInt8
  buffer : Mem UInt8

/-- What is printed at a place of the format, and the number of the argument that has been taken
for it. -/
structure Item where
  place : ℕ
  argument : Option ℕ
  text : List UInt8
  deriving DecidableEq

/-- The `switch` of `printf`, at a place of the format, when the next argument is the `k`-th. -/
def convert (args : Args) (c : UInt8) (i k : ℕ) : Item :=
  match Char.ofUInt8 c with
  | '%' => ⟨i, none, ascii "%"⟩
  | 's' => ⟨i, some k, if args.slot k = 0 then ascii "(null)" else args.string (args.slot k)⟩
  | 'c' => ⟨i, some k, [(args.slot k).toUInt8]⟩
  | 'd' | 'i' =>
    ⟨i, some k, (printSigned args.buffer (args.slot k).toUInt32.toInt32.toInt64).text⟩
  | 'u' =>
    ⟨i, some k, (printUnsignedBase args.buffer (args.slot k).toUInt32.toUInt64 decimal).text⟩
  | 'x' =>
    ⟨i, some k, (printUnsignedBase args.buffer (args.slot k).toUInt32.toUInt64 hexadecimal).text⟩
  | 'p' =>
    ⟨i, some k, ascii "0x" ++ (printUnsignedBase args.buffer (args.slot k) hexadecimal).text⟩
  | _ => ⟨i, none, ascii "%" ++ [c]⟩

/-- The loop of `printf`, over what is left of the format. -/
def printfLoop (args : Args) : List UInt8 → ℕ → ℕ → List Item
  | [], _, _ => []
  | c :: format, i, k =>
    if c ≠ 37 then ⟨i, none, [c]⟩ :: printfLoop args format (i + 1) k
    else
      match format with
      | [] => []
      | c :: format =>
        let item := convert args c (i + 1) k
        item :: printfLoop args format (i + 2) (if item.argument = none then k else k + 1)

/-- `printf` -/
def printf (args : Args) (format : List UInt8) : List Item := printfLoop args (text format) 0 0

/-! ## Formats -/

inductive Kind
  | c | s | d | i | u | x | p | percent
  deriving DecidableEq

def Kind.letter : Kind → Char
  | c => 'c'
  | s => 's'
  | d => 'd'
  | i => 'i'
  | u => 'u'
  | x => 'x'
  | p => 'p'
  | percent => '%'

/-- A conversion with its flag, its width, where zero stands for none, and its length modifier. -/
structure Conversion where
  minus : Bool
  width : ℕ
  long : Bool
  kind : Kind

inductive Piece
  | literal (c : {c : UInt8 // c ≠ 37 ∧ c ≠ 0})
  | conversion (cv : Conversion)

def Conversion.modifiers (cv : Conversion) : List UInt8 :=
  (if cv.minus then ascii "-" else []) ++
    (if cv.width = 0 then [] else numeral digitChar 10 cv.width) ++
    (if cv.long then ascii "l" else [])

def Piece.bytes : Piece → List UInt8
  | literal c => [c.val]
  | conversion cv => 37 :: (cv.modifiers ++ [cv.kind.letter.toUInt8])

def formatOf (ps : List Piece) : List UInt8 := ps.flatMap Piece.bytes

def signed (n : ℤ) : List UInt8 :=
  (if n < 0 then ascii "-" else []) ++ numeral digitChar 10 n.natAbs

/-- What a conversion is to print of an argument before it is brought to its width. -/
def Conversion.value (args : Args) (cv : Conversion) (slot : UInt64) : List UInt8 :=
  match cv.kind with
  | .c => [slot.toUInt8]
  | .s => if slot = 0 then ascii "(null)" else args.string slot
  | .d | .i => signed (if cv.long then slot.toInt64.toInt else slot.toUInt32.toInt32.toInt)
  | .u => numeral digitChar 10 (if cv.long then slot.toNat else slot.toUInt32.toNat)
  | .x => numeral digitChar 16 (if cv.long then slot.toNat else slot.toUInt32.toNat)
  | .p => ascii "0x" ++ numeral digitChar 16 slot.toNat
  | .percent => ascii "%"

def Conversion.rendering (args : Args) (cv : Conversion) (slot : UInt64) : List UInt8 :=
  let s := cv.value args slot
  let blanks := List.replicate (cv.width - s.length) 32
  if cv.minus then s ++ blanks else blanks ++ s

/-- What the conversions are to take and to print, each at the place of its letter. -/
def expected (args : Args) : List Piece → ℕ → ℕ → List Item
  | [], _, _ => []
  | .literal _ :: ps, i, k => expected args ps (i + 1) k
  | .conversion cv :: ps, i, k =>
    let i := i + 1 + cv.modifiers.length
    if cv.kind = .percent then expected args ps (i + 1) k
    else ⟨i, some k, cv.rendering args (args.slot k)⟩ :: expected args ps (i + 1) (k + 1)

/-- Every argument is taken and printed by its own conversion, and nothing else takes one. -/
def Aligned (args : Args) (ps : List Piece) : Prop :=
  (printf args (formatOf ps)).filter (fun item => item.argument ≠ none) = expected args ps 0 0

/-- The letters that `printf` takes an argument for. -/
def takesArgument (c : UInt8) : Bool := Char.ofUInt8 c ∈ ['c', 's', 'd', 'i', 'u', 'x', 'p']

/-- No conversion that takes an argument has a flag, a width or a length modifier. The percent
sign at the end of a `%%` that has one is left over: no such conversion follows it, and no
character that it would make one with. -/
def Plain : Bool → List Piece → Prop
  | _, [] => True
  | leftOver, .literal c :: ps => ¬ (leftOver ∧ takesArgument c) ∧ Plain false ps
  | leftOver, .conversion cv :: ps =>
    if cv.kind = .percent then Plain (leftOver ∨ cv.modifiers ≠ []) ps
    else leftOver = false ∧ cv.modifiers = [] ∧ Plain false ps

variable {args : Args} {c : UInt8} {s : List UInt8} {cv : Conversion} {ps : List Piece}

/-! ## Arguments that are taken -/

theorem convert_argument (args : Args) (c : UInt8) (i k : ℕ) :
    (convert args c i k).argument = if takesArgument c then some k else none := by
  unfold convert takesArgument
  split <;> simp_all

theorem convert_place (args : Args) (c : UInt8) (i k : ℕ) : (convert args c i k).place = i := by
  unfold convert
  split <;> rfl

theorem printfLoop_literal (hc : c ≠ 37) (s : List UInt8) (i k : ℕ) :
    printfLoop args (c :: s) i k = ⟨i, none, [c]⟩ :: printfLoop args s (i + 1) k := by
  cases s <;> exact if_pos hc

theorem printfLoop_percent (args : Args) (c : UInt8) (s : List UInt8) (i k : ℕ) :
    printfLoop args (37 :: c :: s) i k = convert args c (i + 1) k ::
      printfLoop args s (i + 2) (if takesArgument c then k + 1 else k) := by
  have hloop : printfLoop args (37 :: c :: s) i k = convert args c (i + 1) k ::
      printfLoop args s (i + 2)
        (if (convert args c (i + 1) k).argument = none then k else k + 1) := rfl
  rw [hloop, convert_argument]
  by_cases htakes : takesArgument c
  · simp only [htakes, if_true, reduceCtorEq, if_false]
  · simp only [htakes, Bool.false_eq_true, if_true, if_false]

def taken (args : Args) (s : List UInt8) (i k : ℕ) : List Item :=
  (printfLoop args s i k).filter fun item => item.argument ≠ none

theorem taken_literal (hc : c ≠ 37) (s : List UInt8) (i k : ℕ) :
    taken args (c :: s) i k = taken args s (i + 1) k := by
  rw [taken, printfLoop_literal hc, List.filter_cons_of_neg (by simp), taken]

theorem taken_literals {cs : List UInt8} (hcs : ∀ c ∈ cs, c ≠ 37) (s : List UInt8) (i k : ℕ) :
    taken args (cs ++ s) i k = taken args s (i + cs.length) k := by
  induction cs generalizing i with
  | nil => rfl
  | cons c cs ih =>
    have hrest := ih (fun d hd => hcs d (List.mem_cons_of_mem c hd)) (i + 1)
    rw [List.cons_append, taken_literal (hcs c List.mem_cons_self), hrest, List.length_cons,
      Nat.add_assoc, Nat.add_comm 1]

theorem taken_percent (args : Args) (c : UInt8) (s : List UInt8) (i k : ℕ) :
    taken args (37 :: c :: s) i k =
      if takesArgument c then convert args c (i + 1) k :: taken args s (i + 2) (k + 1)
      else taken args s (i + 2) k := by
  have harg := convert_argument args c (i + 1) k
  rw [taken, printfLoop_percent]
  split_ifs with htakes
  · rw [if_pos htakes] at harg
    rw [List.filter_cons_of_pos (by simp [harg]), taken]
  · rw [if_neg htakes] at harg
    rw [List.filter_cons_of_neg (by simp [harg]), taken]

theorem le_place_of_taken {item : Item} {i k : ℕ} (h : item ∈ taken args s i k) :
    i ≤ item.place := by
  have hloop : item ∈ printfLoop args s i k := List.mem_of_mem_filter h
  clear h
  fun_induction printfLoop args s i k with
  | case1 => exact absurd hloop List.not_mem_nil
  | case2 c s i k hc ih =>
    rcases List.mem_cons.mp hloop with rfl | hrest
    · exact Nat.le_refl i
    · exact Nat.le_of_succ_le (ih hrest)
  | case3 => exact absurd hloop List.not_mem_nil
  | case4 c i k hc d s item' ih =>
    rcases List.mem_cons.mp hloop with rfl | hrest
    · rw [convert_place]
      exact Nat.le_succ i
    · exact Nat.le_of_succ_le (Nat.le_of_succ_le (ih hrest))

theorem le_place_of_expected {item : Item} {i k : ℕ} (h : item ∈ expected args ps i k) :
    i ≤ item.place := by
  induction ps generalizing i k with
  | nil => exact absurd h List.not_mem_nil
  | cons p ps ih =>
    cases p with
    | literal c => exact Nat.le_of_succ_le (ih h)
    | conversion cv =>
      rw [expected] at h
      split at h
      · have hle := ih h
        omega
      · rcases List.mem_cons.mp h with rfl | hrest
        · show i ≤ i + 1 + cv.modifiers.length
          omega
        · have hle := ih hrest
          omega

/-! ## Conversions -/

theorem numeral_ne_nil (b n : ℕ) : numeral digitChar b n ≠ [] := by
  rw [numeral]
  split
  · exact List.cons_ne_nil _ _
  · rename_i hn
    rw [Ne, List.reverse_eq_nil_iff, List.map_eq_nil_iff]
    exact Nat.digits_ne_nil_iff_ne_zero.mpr hn

theorem of_mem_modifiers (hc : c ∈ cv.modifiers) : c ≠ 0 ∧ c ≠ 37 ∧ takesArgument c = false := by
  have hdigits : ∀ d < 10, digitChar d ≠ 0 ∧ digitChar d ≠ 37 ∧
      takesArgument (digitChar d) = false := by decide
  rw [Conversion.modifiers, List.mem_append, List.mem_append] at hc
  rcases hc with (hminus | hwidth) | hlong
  · split at hminus
    · rw [List.mem_singleton.mp hminus]
      decide
    · exact absurd hminus List.not_mem_nil
  · split at hwidth
    · exact absurd hwidth List.not_mem_nil
    · obtain ⟨d, hd, rfl⟩ := exists_of_mem_numeral (by decide) hwidth
      exact hdigits d hd
  · split at hlong
    · rw [List.mem_singleton.mp hlong]
      decide
    · exact absurd hlong List.not_mem_nil

theorem of_modifiers_eq_nil (h : cv.modifiers = []) :
    cv.minus = false ∧ cv.width = 0 ∧ cv.long = false := by
  obtain ⟨hfront, hlong⟩ := List.append_eq_nil_iff.mp h
  obtain ⟨hminus, hwidth⟩ := List.append_eq_nil_iff.mp hfront
  refine ⟨?_, ?_, ?_⟩
  · by_contra hset
    rw [Bool.not_eq_false] at hset
    rw [if_pos hset] at hminus
    cases hminus
  · by_contra hne
    rw [if_neg hne] at hwidth
    exact numeral_ne_nil 10 cv.width hwidth
  · by_contra hset
    rw [Bool.not_eq_false] at hset
    rw [if_pos hset] at hlong
    cases hlong

theorem letter_ne_zero (kind : Kind) : kind.letter.toUInt8 ≠ 0 := by
  cases kind <;> decide

theorem takesArgument_letter {kind : Kind} (h : kind ≠ .percent) :
    takesArgument kind.letter.toUInt8 = true := by
  cases kind
  case percent => exact absurd rfl h
  all_goals rfl

theorem letter_ne_percent {kind : Kind} (h : kind ≠ .percent) : kind.letter.toUInt8 ≠ 37 := by
  intro heq
  have htakes := takesArgument_letter h
  rw [heq] at htakes
  cases htakes

theorem text_formatOf (ps : List Piece) : text (formatOf ps) = formatOf ps := by
  apply text_eq_self
  intro c hc
  obtain ⟨p, -, hp⟩ := List.mem_flatMap.mp hc
  cases p with
  | literal d =>
    rw [List.mem_singleton.mp hp]
    exact d.property.2
  | conversion cv =>
    rcases List.mem_cons.mp hp with rfl | hrest
    · decide
    rcases List.mem_append.mp hrest with hmodifier | hletter
    · exact (of_mem_modifiers hmodifier).1
    · rw [List.mem_singleton.mp hletter]
      exact letter_ne_zero cv.kind

theorem text_printSigned_eq (buffer : Mem UInt8) (value : Int32) :
    (printSigned buffer value.toInt64).text = signed value.toInt := by
  have hneg : value < 0 ↔ value.toInt < 0 := Int32.lt_iff_toInt_lt
  rw [text_printSigned, signed]
  simp only [hneg]
  split <;> rfl

theorem rendering_of_modifiers_eq_nil (h : cv.modifiers = []) (slot : UInt64) :
    cv.rendering args slot = cv.value args slot := by
  obtain ⟨hminus, hwidth, -⟩ := of_modifiers_eq_nil h
  rw [Conversion.rendering, hminus, hwidth, Nat.zero_sub]
  rfl

theorem convert_letter (hkind : cv.kind ≠ .percent) (h : cv.modifiers = []) (i k : ℕ) :
    convert args cv.kind.letter.toUInt8 i k = ⟨i, some k, cv.rendering args (args.slot k)⟩ := by
  have hunsigned (base : Base) (hbase : base.val.toNat ≤ 36) (value : UInt64) :
      (printUnsignedBase args.buffer value base).text =
        numeral digitChar base.val.toNat value.toNat :=
    text_printUnsignedBase args.buffer value hbase
  rw [rendering_of_modifiers_eq_nil h]
  obtain ⟨minus, width, long, kind⟩ := cv
  obtain rfl : long = false := (of_modifiers_eq_nil h).2.2
  cases kind with
  | c => rfl
  | s => rfl
  | d => exact congrArg (Item.mk i (some k)) (text_printSigned_eq _ _)
  | i => exact congrArg (Item.mk i (some k)) (text_printSigned_eq _ _)
  | u => exact congrArg (Item.mk i (some k)) (hunsigned decimal (by decide) _)
  | x => exact congrArg (Item.mk i (some k)) (hunsigned hexadecimal (by decide) _)
  | p =>
    exact congrArg (fun s => Item.mk i (some k) (ascii "0x" ++ s))
      (hunsigned hexadecimal (by decide) _)
  | percent => exact absurd rfl hkind

def leftOver (b : Bool) : List UInt8 := if b then ascii "%" else []

@[simp] theorem leftOver_false : leftOver false = [] := rfl

@[simp] theorem leftOver_true : leftOver true = [37] := rfl

/-- A conversion is passed up to its letter when the percent sign in front of it has been used up,
or goes with something else than its letter. -/
theorem taken_modified {b : Bool} (h : b = true ∨ cv.modifiers ≠ []) (s : List UInt8) (i k : ℕ) :
    taken args (leftOver b ++ 37 :: (cv.modifiers ++ s)) i k =
      taken args s (i + (leftOver b).length + 1 + cv.modifiers.length) k := by
  have hmodifiers : ∀ c ∈ cv.modifiers, c ≠ 37 := fun c hc => (of_mem_modifiers hc).2.1
  have hpercent : takesArgument 37 = false := rfl
  cases b with
  | true =>
    have htaken := taken_percent args 37 (cv.modifiers ++ s) i k
    rw [hpercent, if_neg Bool.false_ne_true, taken_literals hmodifiers] at htaken
    exact htaken
  | false =>
    rcases hcv : cv.modifiers with _ | ⟨m, ms⟩
    · exact absurd hcv (h.resolve_left Bool.false_ne_true)
    have hm : m ∈ cv.modifiers := hcv ▸ List.mem_cons_self
    have hms : ∀ c ∈ ms, c ≠ 37 := fun c hc => hmodifiers c (hcv ▸ List.mem_cons_of_mem m hc)
    have htaken := taken_percent args m (ms ++ s) i k
    rw [(of_mem_modifiers hm).2.2, if_neg Bool.false_ne_true, taken_literals hms] at htaken
    have hplace : i + (leftOver false).length + 1 + (m :: ms).length = i + 2 + ms.length := by
      rw [List.length_cons]
      simp only [leftOver, Bool.false_eq_true, if_false, List.length_nil]
      omega
    rw [hplace, ← htaken]
    rfl

/-! ## Alignment -/

theorem ne_cons_of_le_place {items items' : List Item} {item : Item} {i : ℕ} (hi : item.place < i)
    (h : ∀ other ∈ items, i ≤ other.place) : items ≠ item :: items' := by
  rintro rfl
  exact Nat.not_le_of_gt hi (h item List.mem_cons_self)

section

variable (hplain : ∀ i k, taken args (formatOf ps) i k = expected args ps i k ↔ Plain false ps)
include hplain

theorem taken_literal_piece (b : Bool) (c : {c : UInt8 // c ≠ 37 ∧ c ≠ 0}) (i k : ℕ) :
    taken args (leftOver b ++ formatOf (.literal c :: ps)) i k =
      expected args (.literal c :: ps) (i + (leftOver b).length) k ↔
        Plain b (.literal c :: ps) := by
  have hformat : formatOf (.literal c :: ps) = c.val :: formatOf ps := rfl
  rw [hformat, expected, Plain]
  cases b with
  | false =>
    rw [leftOver_false, List.nil_append, taken_literal c.property.1]
    simpa using hplain (i + 1) k
  | true =>
    rw [leftOver_true, List.singleton_append, taken_percent]
    split_ifs with htakes
    · refine iff_of_false ?_ (fun h => h.1 ⟨rfl, htakes⟩)
      refine (ne_cons_of_le_place (i := i + 2) ?_ fun other h => le_place_of_expected h).symm
      rw [convert_place]
      exact Nat.lt_succ_self (i + 1)
    · simpa [htakes] using hplain (i + 2) k

theorem taken_conversion_piece
    (hleft : ∀ i k, taken args (37 :: formatOf ps) i k = expected args ps (i + 1) k ↔ Plain true ps)
    (b : Bool) (cv : Conversion) (i k : ℕ) :
    taken args (leftOver b ++ formatOf (.conversion cv :: ps)) i k =
      expected args (.conversion cv :: ps) (i + (leftOver b).length) k ↔
        Plain b (.conversion cv :: ps) := by
  have hformat : formatOf (.conversion cv :: ps) =
      37 :: (cv.modifiers ++ cv.kind.letter.toUInt8 :: formatOf ps) := by
    rw [formatOf, List.flatMap_cons, Piece.bytes, List.cons_append, List.append_assoc]
    rfl
  rw [hformat, expected, Plain]
  by_cases hmodified : b = true ∨ cv.modifiers ≠ []
  · -- The letter is reached as a character that stands for itself.
    rw [taken_modified hmodified]
    split_ifs with hkind
    · rw [hkind, decide_eq_true hmodified]
      exact hleft _ k
    · rw [taken_literal (letter_ne_percent hkind)]
      apply iff_of_false
      · exact ne_cons_of_le_place (Nat.lt_succ_self _) fun other h => le_place_of_taken h
      · rintro ⟨hb, hnil, -⟩
        rcases hmodified with hb' | hne
        · exact Bool.false_ne_true (hb ▸ hb')
        · exact hne hnil
  · obtain ⟨hb, hnil⟩ := not_or.mp hmodified
    rw [Bool.not_eq_true] at hb
    rw [not_not] at hnil
    subst hb
    rw [hnil, leftOver_false, List.nil_append, List.nil_append, taken_percent]
    split_ifs with htakes hkind hkind
    · rw [hkind] at htakes
      cases htakes
    · rw [convert_letter hkind hnil]
      simpa using hplain (i + 2) (k + 1)
    · simpa using hplain (i + 2) k
    · exact absurd (takesArgument_letter hkind) htakes

end

/-- From a place of the format on, the arguments go to their conversions exactly if the rest of the
format is plain. -/
theorem taken_eq_expected_iff (args : Args) (b : Bool) (ps : List Piece) (i k : ℕ) :
    taken args (leftOver b ++ formatOf ps) i k =
      expected args ps (i + (leftOver b).length) k ↔ Plain b ps := by
  induction ps generalizing b i k with
  | nil => cases b <;> exact iff_of_true rfl trivial
  | cons p ps ih =>
    cases p with
    | literal c => exact taken_literal_piece (ih false) b c i k
    | conversion cv => exact taken_conversion_piece (ih false) (ih true) b cv i k

/-- The arguments of a format go to their conversions exactly if the format is plain. -/
theorem aligned_iff_plain (args : Args) (ps : List Piece) : Aligned args ps ↔ Plain false ps := by
  rw [Aligned, printf, text_formatOf]
  exact taken_eq_expected_iff args false ps 0 0

def literals (s : String) : List Piece :=
  (ascii s).filterMap fun c =>
    if h : c ≠ 37 ∧ c ≠ 0 then some (.literal ⟨c, h⟩) else none

/-- The format of a row in `wnu_sata_print_devices`. -/
def deviceRow : List Piece := List.flatten
  [literals "sd", [.conversion ⟨false, 0, false, .c⟩], literals "    ",
    [.conversion ⟨true, 8, false, .s⟩], literals "  ", [.conversion ⟨true, 10, false, .s⟩],
    literals "  ", [.conversion ⟨false, 0, false, .u⟩], literals ":",
    [.conversion ⟨false, 0, false, .u⟩], literals ".", [.conversion ⟨false, 0, false, .u⟩],
    literals "       port=", [.conversion ⟨false, 0, false, .u⟩], literals " sig=0x",
    [.conversion ⟨false, 0, false, .x⟩], literals " ssts=0x",
    [.conversion ⟨false, 0, false, .x⟩], literals "\n"]

def diskArgs : Args where
  slot := fun k => [97, 0x1000, 0x2000, 0, 31, 2, 0, 0x101, 0x123].getD k 0
  string := fun address => if address = 0x1000 then ascii "SATA" else ascii "online"
  buffer := fun _ => 0

/-- The two strings of the row are not taken by their conversions. The bus is printed from the
address of the first one. -/
theorem not_aligned_deviceRow :
    formatOf deviceRow =
      ascii "sd%c    %-8s  %-10s  %u:%u.%u       port=%u sig=0x%x ssts=0x%x\n" ∧
    ((printf diskArgs (formatOf deviceRow)).filter (fun item => item.argument ≠ none)).map
      (fun item => (item.place, item.argument)) =
        [(3, some 0), (22, some 1), (25, some 2), (28, some 3), (42, some 4), (51, some 5),
          (61, some 6)] ∧
    ¬ Aligned diskArgs deviceRow := by
  have htaken : ((printf diskArgs (formatOf deviceRow)).filter
      (fun item => item.argument ≠ none)).map (fun item => (item.place, item.argument)) =
        [(3, some 0), (22, some 1), (25, some 2), (28, some 3), (42, some 4), (51, some 5),
          (61, some 6)] := by decide +kernel
  refine ⟨by decide +kernel, htaken, fun haligned => ?_⟩
  rw [Aligned] at haligned
  rw [haligned] at htaken
  have hlength : (expected diskArgs deviceRow 0 0).length = 9 := by decide +kernel
  have hseven := congrArg List.length htaken
  rw [List.length_map, hlength] at hseven
  cases hseven

end Wnu.Lib
