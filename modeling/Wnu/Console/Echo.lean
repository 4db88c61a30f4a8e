import Mathlib.Algebra.Ring.Nat
import Wnu.Console.LineDiscipline

/-! # Echo

What is typed is echoed, so that the cursor stands behind the line being typed. Counted
in cells, with the lines scrolled off, each character moves it by its width. A rubout
moves it back by one cell, and not over the start of a row, whatever the character takes
that it removes.
-/

namespace Wnu.Console

open Memory Runs

/-! ## The keyboard -/

/-- The characters of `keymap` up to the last one. -/
def keymap : List UInt8 :=
  [0, 27, '1'.toUInt8, '2'.toUInt8, '3'.toUInt8, '4'.toUInt8, '5'.toUInt8, '6'.toUInt8,
    '7'.toUInt8, '8'.toUInt8,
    '9'.toUInt8, '0'.toUInt8, '-'.toUInt8, '='.toUInt8, 8, '\t'.toUInt8, 'q'.toUInt8,
    'w'.toUInt8, 'e'.toUInt8, 'r'.toUInt8,
    't'.toUInt8, 'y'.toUInt8, 'u'.toUInt8, 'i'.toUInt8, 'o'.toUInt8, 'p'.toUInt8, '['.toUInt8,
    ']'.toUInt8, '\n'.toUInt8, 0,
    'a'.toUInt8, 's'.toUInt8, 'd'.toUInt8, 'f'.toUInt8, 'g'.toUInt8, 'h'.toUInt8, 'j'.toUInt8,
    'k'.toUInt8, 'l'.toUInt8, ';'.toUInt8,
    39, 96, 0, 92, 'z'.toUInt8, 'x'.toUInt8, 'c'.toUInt8, 'v'.toUInt8, 'b'.toUInt8,
    'n'.toUInt8,
    'm'.toUInt8, ','.toUInt8, '.'.toUInt8, '/'.toUInt8, 0, '*'.toUInt8, 0, ' '.toUInt8]

/-- The character that `wnu_keyboard_handle_scancode` pushes, if there is one. -/
def scancodeChar (sc : UInt8) : Option UInt8 :=
  if sc &&& 0x80 ≠ 0 then none
  else if sc ≥ 128 then none
  else
    let c := keymap.getD sc.toNat 0
    if c = 0 then none else some c

def Typable (c : UInt8) : Prop := (∃ sc, scancodeChar sc = some c) ∧ c ≠ lineEnd

theorem mem_keymap_of_scancodeChar {sc c : UInt8} (h : scancodeChar sc = some c) :
    c ∈ keymap := by
  rw [scancodeChar] at h
  split at h
  · cases h
  split at h
  · cases h
  · simp only at h
    split at h
    · cases h
    · rename_i hne
      obtain rfl := Option.some.inj h
      by_cases hlt : sc.toNat < keymap.length
      · rw [List.getD_eq_getElem _ _ hlt]
        exact List.getElem_mem hlt
      · exact absurd (List.getD_eq_default _ _ (Nat.not_lt.mp hlt)) hne

theorem Typable.ne_return {c : UInt8} (h : Typable c) : c ≠ '\r'.toUInt8 := by
  obtain ⟨⟨sc, hsc⟩, -⟩ := h
  have hno : '\r'.toUInt8 ∉ keymap := by decide +kernel
  rintro rfl
  exact hno (mem_keymap_of_scancodeChar hsc)

/-! ## The cursor -/

def echo (s : State) (c : UInt8) : Unit × State := ((), putchar s c)

def push (s : State) (c : UInt8) : Unit × State := ((), pushInput s c)

def State.row (s : State) : ℕ := s.cursorY + s.scrolls

/-- The cursor after a sequence of characters: its column, and its row counted with the lines
scrolled. -/
def cursorAfter (m : State → UInt8 → Unit × State) (s : State) (cs : List UInt8) : ℕ × ℕ :=
  ((run m s cs).cursorX, (run m s cs).row)

def State.line (s : State) : List UInt8 := window s.input.buffer s.input.length

/-! ## Cells -/

def cells (c : UInt8) : ℕ := if c = '\t'.toUInt8 then 4 else 1

def width (line : List UInt8) : ℕ := (line.map cells).sum

structure OnScreen (s : State) : Prop where
  ready : s.display.ready = true
  column_lt : s.cursorX < s.display.cols
  row_lt : s.cursorY < s.display.rows

def State.position (s : State) : ℕ := s.cursorX + s.display.cols * s.row

variable {s s' : State} {c : UInt8} {kept cs : List UInt8}

theorem cells_pos (c : UInt8) : 1 ≤ cells c := by
  rw [cells]
  split <;> omega

theorem cells_eq_one_iff : cells c = 1 ↔ c ≠ '\t'.toUInt8 := by
  rw [cells]
  split
  · rename_i h
    exact iff_of_false (by decide) (not_not.mpr h)
  · rename_i h
    exact iff_of_true rfl h

theorem width_concat (kept : List UInt8) (c : UInt8) :
    width (kept ++ [c]) = width kept + cells c := by
  simp [width]

/-! ## Printing -/

theorem onScreen_newline (hready : s.display.ready = true) (hcol : 0 < s.display.cols)
    (hrow : s.cursorY < s.display.rows) : OnScreen (newline s) ∧
      (newline s).position = s.display.cols * (s.row + 1) := by
  unfold newline State.position State.row
  dsimp only
  by_cases hlast : s.cursorY + 1 ≥ s.display.rows
  · have hy : s.display.rows - 1 = s.cursorY := by omega
    rw [if_pos hlast]
    refine ⟨⟨hready, hcol, Nat.sub_lt (Nat.zero_lt_of_lt hrow) Nat.one_pos⟩, ?_⟩
    rw [hy, Nat.zero_add, Nat.add_assoc]
  · rw [if_neg hlast]
    refine ⟨⟨hready, hcol, Nat.not_le.mp hlast⟩, ?_⟩
    rw [Nat.zero_add, Nat.add_right_comm]

theorem onScreen_printChar (h : OnScreen s) (c : UInt8) : OnScreen (printChar s c) ∧
    (printChar s c).position = s.position + 1 := by
  have hcol := h.column_lt
  unfold printChar
  dsimp only
  by_cases hend : s.cursorX + 1 ≥ s.display.cols
  · rw [if_pos hend]
    generalize drawChar s.display s.cursorX s.cursorY c s.video = video
    obtain ⟨hscreen, hpos⟩ := onScreen_newline
      (s := { s with video := video, cursorX := s.cursorX + 1 }) h.ready
      (Nat.zero_lt_of_lt hcol) h.row_lt
    refine ⟨hscreen, hpos.trans ?_⟩
    rw [Nat.mul_add, State.position]
    simp only [State.row]
    omega
  · rw [if_neg hend]
    refine ⟨⟨h.ready, Nat.not_le.mp hend, h.row_lt⟩, ?_⟩
    simp only [State.position, State.row]
    omega

theorem onScreen_spaces (h : OnScreen s) (n : ℕ) :
    let s' := forLoop n (fun _ s => printChar s ' '.toUInt8) s
    OnScreen s' ∧ s'.position = s.position + n := by
  induction n with
  | zero => exact ⟨h, rfl⟩
  | succ n ih =>
    obtain ⟨hscreen, hpos⟩ := ih
    obtain ⟨hscreen', hpos'⟩ := onScreen_printChar hscreen ' '.toUInt8
    exact ⟨hscreen', hpos'.trans (congrArg (· + 1) hpos)⟩

theorem onScreen_putchar (h : OnScreen s) (hend : c ≠ lineEnd) (hreturn : c ≠ '\r'.toUInt8)
    (hrubout : c ≠ rubout) : OnScreen (putchar s c) ∧
      (putchar s c).position = s.position + cells c := by
  unfold putchar cells
  simp only [h.ready, Bool.not_true, Bool.false_eq_true, if_false, if_neg hend, if_neg hreturn,
    if_neg hrubout]
  split
  · exact onScreen_spaces h 4
  · exact onScreen_printChar h c

theorem onScreen_rubout (h : OnScreen s) : OnScreen (putchar s rubout) ∧
    (putchar s rubout).position + (if s.cursorX ≠ 0 then 1 else 0) = s.position := by
  have hend : rubout ≠ '\n'.toUInt8 := by decide
  have hreturn : rubout ≠ '\r'.toUInt8 := by decide
  have hputchar : putchar s rubout = backspace s := by
    simp only [putchar, h.ready, Bool.not_true, Bool.false_eq_true, if_false, if_neg hend,
      if_neg hreturn, if_true]
  have hcol := h.column_lt
  rw [hputchar]
  unfold backspace
  by_cases hzero : s.cursorX = 0
  · rw [if_pos hzero, if_neg (not_not.mpr hzero)]
    exact ⟨h, rfl⟩
  · rw [if_neg hzero, if_pos hzero]
    refine ⟨⟨h.ready, ?_, h.row_lt⟩, ?_⟩
    · dsimp only
      omega
    · simp only [State.position, State.row]
      omega

theorem position_mod (h : OnScreen s) : s.position % s.display.cols = s.cursorX := by
  rw [State.position, Nat.add_mul_mod_self_left, Nat.mod_eq_of_lt h.column_lt]

/-! ## Pushing -/

def typing (kept : List UInt8) (c : UInt8) : Unit × List UInt8 := ((), edit kept c)

/-- A rubout removes a character of one cell, and not at the start of a row. The line begins in
the column `x` of a screen with `cols` columns. -/
def Undone (x cols : ℕ) (kept : List UInt8) (c : UInt8) : Prop :=
  c = rubout → kept ≠ [] →
    kept.getLast? ≠ some '\t'.toUInt8 ∧ (x + width kept) % cols ≠ 0

theorem undone_concat_iff (x cols : ℕ) (kept : List UInt8) (d : UInt8) :
    Undone x cols (kept ++ [d]) rubout ↔
      d ≠ '\t'.toUInt8 ∧ (x + width (kept ++ [d])) % cols ≠ 0 := by
  rw [Undone, List.getLast?_concat]
  constructor
  · intro hu
    obtain ⟨htab, hcolumn⟩ := hu rfl (by simp)
    exact ⟨fun he => htab (congrArg some he), hcolumn⟩
  · rintro ⟨htab, hcolumn⟩ - -
    exact ⟨fun he => htab (Option.some.inj he), hcolumn⟩

structure Typing (s : State) (pushed : List UInt8) : Prop where
  screen : OnScreen s
  unfinished : s.input.lineReady = false
  typed : Typed s.input pushed
  open' : lineEnd ∉ pushed

theorem Typing.push {pushed : List UInt8} (h : Typing s pushed) (hc : c ≠ lineEnd)
    (hscreen : OnScreen (pushInput s c)) : Typing (pushInput s c) (pushed ++ [c]) := by
  obtain ⟨htyped, hflag⟩ := typed_pushInput h.screen.ready h.unfinished h.open' h.typed c
  have hopen : lineEnd ∉ pushed ++ [c] := by
    rw [List.mem_append, List.mem_singleton, not_or]
    exact ⟨h.open', hc.symm⟩
  refine ⟨hscreen, ?_, htyped, hopen⟩
  rw [← Bool.not_eq_true, hflag]
  exact hopen

theorem onScreen_pushInput (h : OnScreen s) (hflag : s.input.lineReady = false)
    (hc : c ≠ lineEnd) (hreturn : c ≠ '\r'.toUInt8) : OnScreen (pushInput s c) ∧
      (pushInput s c).position +
          (if c = rubout ∧ s.input.length ≠ 0 ∧ s.cursorX ≠ 0 then 1 else 0) =
        s.position + (if c ≠ rubout ∧ s.input.length < 255 then cells c else 0) := by
  unfold pushInput
  simp only [h.ready, hflag, Bool.not_true, Bool.false_eq_true, if_false, if_neg hc]
  by_cases hb : c = rubout
  · simp only [hb, if_true, not_true_eq_false, false_and, if_false, true_and, ne_eq]
    by_cases hzero : s.input.length = 0
    · simp only [hzero, if_true, not_true_eq_false, false_and, if_false]
      exact ⟨h, trivial⟩
    · simp only [hzero, if_false, not_false_eq_true, true_and]
      generalize Input.mk (Function.update s.input.buffer (s.input.length - 1) 0)
        (s.input.length - 1) false = input
      exact onScreen_rubout (s := { s with input := input }) ⟨h.ready, h.column_lt, h.row_lt⟩
  · simp only [hb, if_false, false_and, not_false_eq_true, true_and, ne_eq]
    by_cases hfull : s.input.length + 1 ≥ inputBufferSize
    · have hlen : ¬ s.input.length < 255 := by
        rw [inputBufferSize] at hfull
        omega
      simp only [hfull, hlen, if_true, if_false]
      exact ⟨h, trivial⟩
    · have hlen : s.input.length < 255 := by
        rw [inputBufferSize] at hfull
        omega
      simp only [hfull, hlen, if_true, if_false]
      generalize Input.mk (Function.update (Function.update s.input.buffer s.input.length c)
        (s.input.length + 1) 0) (s.input.length + 1) false = input
      exact onScreen_putchar (s := { s with input := input }) ⟨h.ready, h.column_lt, h.row_lt⟩
        hc hreturn hb

/-- A rubout takes the cursor back with the line, or less far than the line. Here `lag` is how far
the cursor is behind. -/
theorem Typing.rubout_lag {pushed : List UInt8} (h : Typing s pushed) {x lag : ℕ}
    (hpos : s.position = x + width (lineOf pushed) + lag) :
    ∃ lag', lag ≤ lag' ∧
      (pushInput s rubout).position = x + width (lineOf pushed).dropLast + lag' ∧
      (lag = 0 → (lag' = 0 ↔ Undone x s.display.cols (lineOf pushed) rubout)) := by
  obtain ⟨-, hpush⟩ :=
    onScreen_pushInput h.screen h.unfinished (c := rubout) (by decide) (by decide)
  have hlen := h.typed.length_eq
  have hno : ¬ (rubout ≠ rubout ∧ s.input.length < 255) := fun hn => hn.1 rfl
  rw [if_neg hno] at hpush
  generalize lineOf pushed = kept at hpos hlen ⊢
  cases kept using List.reverseRecOn with
  | nil =>
    rw [if_neg (fun hn => hn.2.1 hlen)] at hpush
    refine ⟨lag, Nat.le_refl _, ?_, fun h0 => iff_of_true h0 fun _ hne => absurd rfl hne⟩
    rw [List.dropLast_nil]
    omega
  | append_singleton kept d =>
    rw [List.length_append, List.length_singleton] at hlen
    have hcells := cells_pos d
    have hcolumn (h0 : lag = 0) : (x + width (kept ++ [d])) % s.display.cols = s.cursorX := by
      rw [h0, Nat.add_zero] at hpos
      rw [← hpos, position_mod h.screen]
    rw [width_concat] at hpos
    rw [List.dropLast_concat, undone_concat_iff]
    by_cases hzero : s.cursorX = 0
    · rw [if_neg (fun hn => hn.2.2 hzero)] at hpush
      refine ⟨lag + cells d, by omega, by omega, fun h0 => ?_⟩
      rw [hcolumn h0]
      exact iff_of_false (by omega) fun hu => hu.2 hzero
    · rw [if_pos ⟨rfl, by omega, hzero⟩] at hpush
      refine ⟨lag + cells d - 1, by omega, by omega, fun h0 => ?_⟩
      have hone : lag + cells d - 1 = 0 ↔ cells d = 1 := by omega
      rw [hcolumn h0, hone, cells_eq_one_iff]
      exact ⟨fun htab => ⟨htab, hzero⟩, And.left⟩

theorem Typing.push_lag {pushed : List UInt8} (h : Typing s pushed) (hc : c ≠ lineEnd)
    (hreturn : c ≠ '\r'.toUInt8) {x lag : ℕ}
    (hpos : s.position = x + width (lineOf pushed) + lag) :
    ∃ lag', lag ≤ lag' ∧
      (pushInput s c).position = x + width (lineOf (pushed ++ [c])) + lag' ∧
      (lag = 0 → (lag' = 0 ↔ Undone x s.display.cols (lineOf pushed) c)) := by
  rw [lineOf_concat h.open' hc, edit]
  by_cases hb : c = rubout
  · rw [if_pos hb, hb]
    exact h.rubout_lag hpos
  · obtain ⟨-, hpush⟩ := onScreen_pushInput h.screen h.unfinished hc hreturn
    have hlen := h.typed.length_eq
    have hvac : Undone x s.display.cols (lineOf pushed) c := fun h => absurd h hb
    have hno : ¬ (c = rubout ∧ s.input.length ≠ 0 ∧ s.cursorX ≠ 0) := fun hn => hb hn.1
    rw [if_neg hno] at hpush
    rw [if_neg hb]
    refine ⟨lag, Nat.le_refl _, ?_, fun h0 => iff_of_true h0 hvac⟩
    by_cases hroom : (lineOf pushed).length < 255
    · rw [if_pos ⟨hb, hlen ▸ hroom⟩] at hpush
      rw [if_pos hroom, width_concat]
      omega
    · rw [if_neg (fun hn => hroom (hlen ▸ hn.2))] at hpush
      rw [if_neg hroom]
      omega

/-! ## Whole lines -/

theorem Typing.run_lag {pushed : List UInt8} (h : Typing s pushed) {cs : List UInt8}
    (hcs : ∀ c ∈ cs, Typable c) {x lag : ℕ}
    (hpos : s.position = x + width (lineOf pushed) + lag) :
    Typing (run Console.push s cs) (pushed ++ cs) ∧
      (run Console.push s cs).display = s.display ∧ ∃ lag', lag ≤ lag' ∧
      (run Console.push s cs).position = x + width (lineOf (pushed ++ cs)) + lag' ∧
      (lag = 0 →
        (lag' = 0 ↔ Along typing (Undone x s.display.cols) (lineOf pushed) cs)) := by
  induction cs generalizing s pushed lag with
  | nil =>
    rw [List.append_nil]
    exact ⟨h, rfl, lag, Nat.le_refl _, hpos, fun h0 => iff_of_true h0 trivial⟩
  | cons c cs ih =>
    obtain ⟨hc, hcs⟩ := List.forall_mem_cons.mp hcs
    obtain ⟨lag₁, hle₁, hpos₁, hiff₁⟩ := h.push_lag hc.2 hc.ne_return hpos
    have h₁ : Typing (pushInput s c) (pushed ++ [c]) :=
      h.push hc.2 (onScreen_pushInput h.screen h.unfinished hc.2 hc.ne_return).1
    have hdisplay := pushInput_display s c
    obtain ⟨h₂, hdisplay₂, lag₂, hle₂, hpos₂, hiff₂⟩ := ih h₁ hcs hpos₁
    rw [List.append_assoc, List.singleton_append] at h₂ hpos₂
    rw [hdisplay, lineOf_concat h.open' hc.2] at hiff₂
    refine ⟨h₂, hdisplay₂.trans hdisplay, lag₂, hle₁.trans hle₂, hpos₂, fun h0 => ?_⟩
    rw [along_cons]
    by_cases hlag : lag₁ = 0
    · exact (hiff₂ hlag).trans (and_iff_right ((hiff₁ h0).mp hlag)).symm
    · exact iff_of_false (by omega) fun hall => hlag ((hiff₁ h0).mpr hall.1)

theorem run_echo (h : OnScreen s) {line : List UInt8}
    (hline : ∀ c ∈ line, c ≠ lineEnd ∧ c ≠ '\r'.toUInt8 ∧ c ≠ rubout) :
    OnScreen (run echo s line) ∧ (run echo s line).display = s.display ∧
      (run echo s line).position = s.position + width line := by
  induction line generalizing s with
  | nil => exact ⟨h, rfl, rfl⟩
  | cons c line ih =>
    obtain ⟨⟨hend, hreturn, hrubout⟩, hline⟩ := List.forall_mem_cons.mp hline
    obtain ⟨h₁, hpos₁⟩ := onScreen_putchar h hend hreturn hrubout
    obtain ⟨h₂, hdisplay₂, hpos₂⟩ := ih h₁ hline
    have hwidth : width (c :: line) = cells c + width line := rfl
    refine ⟨h₂, hdisplay₂.trans (putchar_display s c), ?_⟩
    rw [run_cons, hwidth, ← Nat.add_assoc, ← hpos₁]
    exact hpos₂

theorem mem_foldl_edit {kept cs : List UInt8} {d : UInt8} (h : d ∈ cs.foldl edit kept) :
    d ∈ kept ∨ d ∈ cs ∧ d ≠ rubout := by
  induction cs generalizing kept with
  | nil => exact .inl h
  | cons c cs ih =>
    rcases ih h with hmem | ⟨hmem, hne⟩
    · rw [edit] at hmem
      split at hmem
      · exact .inl (List.dropLast_subset kept hmem)
      split at hmem
      · rename_i hb _
        rcases List.mem_append.mp hmem with hmem | hmem
        · exact .inl hmem
        · rw [List.mem_singleton.mp hmem]
          exact .inr ⟨List.mem_cons_self, hb⟩
      · exact .inl hmem
    · exact .inr ⟨List.mem_cons_of_mem c hmem, hne⟩

structure AtPrompt (s : State) : Prop extends OnScreen s where
  unfinished : s.input.lineReady = false
  empty : s.input.length = 0

theorem AtPrompt.typing (h : AtPrompt s) : Typing s [] where
  screen := h.toOnScreen
  unfinished := h.unfinished
  typed := by
    rw [Typed, h.empty]
    rfl
  open' := List.not_mem_nil

theorem cursor_eq_iff (h : OnScreen s) (h' : OnScreen s')
    (hcols : s'.display.cols = s.display.cols) :
    (s.cursorX, s.row) = (s'.cursorX, s'.row) ↔ s.position = s'.position := by
  have hcol := h.column_lt
  have hcol' := h'.column_lt
  rw [hcols] at hcol'
  rw [State.position, State.position, hcols, Prod.mk.injEq]
  constructor
  · rintro ⟨hx, hy⟩
    rw [hx, hy]
  · intro heq
    have hmod := congrArg (· % s.display.cols) heq
    simp only [Nat.add_mul_mod_self_left, Nat.mod_eq_of_lt hcol, Nat.mod_eq_of_lt hcol'] at hmod
    rw [hmod] at heq
    exact ⟨hmod, Nat.eq_of_mul_eq_mul_left (Nat.zero_lt_of_lt hcol) (Nat.add_left_cancel heq)⟩

/-- From a prompt, the cursor follows the line being typed exactly if no rubout removes a tab or is
typed in the first column. -/
theorem cursor_follows_iff (h : AtPrompt s) (hcs : ∀ c ∈ cs, Typable c) :
    cursorAfter push s cs = cursorAfter echo s (run push s cs).line ↔
      Along typing (Undone s.cursorX s.display.cols) [] cs := by
  have hpos : s.position = s.position + width (lineOf []) + 0 := rfl
  obtain ⟨htyping, hdisplay, lag, -, hpush, hiff⟩ := h.typing.run_lag hcs hpos
  rw [List.nil_append] at htyping hpush
  have hline : (run push s cs).line = lineOf cs := htyping.typed
  have hprinted : ∀ c ∈ lineOf cs, c ≠ lineEnd ∧ c ≠ '\r'.toUInt8 ∧ c ≠ rubout := by
    intro c hc
    rw [lineOf, takeWhile_of_not_mem htyping.open'] at hc
    rcases mem_foldl_edit hc with hmem | ⟨hmem, hne⟩
    · exact absurd hmem List.not_mem_nil
    · exact ⟨(hcs c hmem).2, (hcs c hmem).ne_return, hne⟩
  obtain ⟨hecho, hdisplay', hpos'⟩ := run_echo h.toOnScreen hprinted
  have hcols : (run echo s (lineOf cs)).display.cols = (run push s cs).display.cols := by
    rw [hdisplay', hdisplay]
  have hundone : Undone s.position s.display.cols = Undone s.cursorX s.display.cols := by
    funext kept c
    rw [Undone, Undone, State.position, Nat.add_right_comm, Nat.add_mul_mod_self_left]
  rw [hline, cursorAfter, cursorAfter, cursor_eq_iff htyping.screen hecho hcols, hpush, hpos',
    ← hundone]
  refine Iff.trans ?_ (hiff rfl)
  omega

def tenColumns : Framebuffer where
  width := 80
  height := 32
  pitch := 320
  bytesPerPixel := 4
  redShift := 16
  greenShift := 8
  blueShift := 0
  base := fun _ => 0

def tenColumnsPrompt : State :=
  bind staticState (some tenColumns) (some ⟨font8x16, fun _ => 0⟩)

theorem atPrompt_tenColumns : AtPrompt tenColumnsPrompt where
  ready := by decide +kernel
  column_lt := by decide +kernel
  row_lt := by decide +kernel
  unfinished := by decide +kernel
  empty := by decide +kernel

theorem cursor_follows_iff_letter :
    cursorAfter push tenColumnsPrompt ['a'.toUInt8, rubout] =
      cursorAfter echo tenColumnsPrompt
        (run push tenColumnsPrompt ['a'.toUInt8, rubout]).line := by
  have htypable : ∀ c ∈ ['a'.toUInt8, rubout], Typable c := by
    rintro c hc
    simp only [List.mem_cons, List.not_mem_nil, or_false] at hc
    rcases hc with rfl | rfl
    · exact ⟨⟨30, by decide +kernel⟩, by decide⟩
    · exact ⟨⟨14, by decide +kernel⟩, by decide⟩
  have hcursor : tenColumnsPrompt.cursorX = 0 := by decide +kernel
  have hcols : tenColumnsPrompt.display.cols = 10 := by decide +kernel
  refine (cursor_follows_iff atPrompt_tenColumns htypable).mpr ⟨?_, ?_, trivial⟩
  · exact fun hb => absurd hb (by decide)
  · rw [hcursor, hcols]
    exact fun _ _ => by decide

/-- A tab takes four cells, and the rubout that removes it gives back one. -/
theorem not_cursor_follows_tab :
    ¬ ∀ (s : State) (cs : List UInt8), AtPrompt s → (∀ c ∈ cs, Typable c) →
      cursorAfter push s cs = cursorAfter echo s (run push s cs).line := by
  intro hall
  have htypable : ∀ c ∈ ['\t'.toUInt8, rubout], Typable c := by
    rintro c hc
    simp only [List.mem_cons, List.not_mem_nil, or_false] at hc
    rcases hc with rfl | rfl
    · exact ⟨⟨15, by decide +kernel⟩, by decide⟩
    · exact ⟨⟨14, by decide +kernel⟩, by decide⟩
  have hfollows := hall tenColumnsPrompt ['\t'.toUInt8, rubout] atPrompt_tenColumns htypable
  revert hfollows
  decide +kernel

end Wnu.Console
