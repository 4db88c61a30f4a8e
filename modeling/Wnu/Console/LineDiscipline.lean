import Wnu.Console.Glyphs
import Wnu.Console.LineInput

/-! # Lines are delivered whole

The characters pushed up to a `'\n'` are edited into a line. Every read that finds
a line returns the line of the characters pushed since the read before it cleared
the flag, wherever the pushes fall between the statements of the reads: from the
test on, a finished line is left alone until the flag is cleared, and the flag is
cleared last.
-/

namespace Wnu.Console

open Memory Runs

def edit (kept : List UInt8) (c : UInt8) : List UInt8 :=
  if c = rubout then kept.dropLast
  else if kept.length < 255 then kept ++ [c] else kept

/-- The line typed by a sequence of characters: what comes before the first `'\n'`, edited. -/
def lineOf (pushed : List UInt8) : List UInt8 :=
  (pushed.takeWhile (· ≠ lineEnd)).foldl edit []

/-- A returned call holds the line of the pushed characters, terminated and with its length. -/
structure Holds (buffer : Mem UInt8) (length : ℕ) (pushed : List UInt8) : Prop where
  ended : lineEnd ∈ pushed
  length_eq : length = (lineOf pushed).length
  window_eq : window buffer length = lineOf pushed
  terminated : buffer length = 0

/-- What an observer has seen: the characters pushed since the flag was last cleared,
those pushed before each of the times it was cleared, and the lines returned. -/
structure Seen where
  current : List UInt8
  past : List (List UInt8)
  returned : List Returned

def observe (h : Seen) : System × Event × Option Returned → Seen
  | (_, .push c, _) => { h with current := h.current ++ [c] }
  | (_, .call _ _, _) => h
  | (s, .step, r) =>
    { current := if s.call.place = .clearReady then [] else h.current
      past := if s.call.place = .clearReady then h.past ++ [h.current] else h.past
      returned := h.returned ++ (r.filter (·.found)).toList }

def seen (s : System) (es : List Event) : Seen := (trace exec s es).foldl observe ⟨[], [], []⟩

/-- Reads are called with room for a whole line. -/
def Event.Roomy : Event → Prop
  | .call _ size => inputBufferSize ≤ size
  | _ => True

/-! ## Editing -/

theorem length_foldl_edit_le {kept : List UInt8} (h : kept.length ≤ 255) (cs : List UInt8) :
    (cs.foldl edit kept).length ≤ 255 := by
  induction cs generalizing kept with
  | nil => exact h
  | cons c cs ih =>
    apply ih
    unfold edit
    split_ifs with hb hlt
    · rw [List.length_dropLast]
      omega
    · rw [List.length_append, List.length_singleton]
      omega
    · exact h

theorem length_lineOf_le (pushed : List UInt8) : (lineOf pushed).length ≤ 255 :=
  length_foldl_edit_le (Nat.zero_le _) _

@[simp] theorem lineOf_nil : lineOf [] = [] := rfl

theorem lineOf_append_of_mem {pushed : List UInt8} (h : lineEnd ∈ pushed) (cs : List UInt8) :
    lineOf (pushed ++ cs) = lineOf pushed := by
  have htake : (pushed ++ cs).takeWhile (· ≠ lineEnd) = pushed.takeWhile (· ≠ lineEnd) := by
    induction pushed with
    | nil => exact absurd h List.not_mem_nil
    | cons c pushed ih =>
      by_cases hc : c = lineEnd
      · simp [hc]
      · obtain hd | htail := List.mem_cons.mp h
        · exact absurd hd.symm hc
        · simpa [hc] using ih htail
  rw [lineOf, lineOf, htake]

theorem takeWhile_of_not_mem {pushed : List UInt8} (h : lineEnd ∉ pushed) :
    pushed.takeWhile (· ≠ lineEnd) = pushed :=
  List.takeWhile_eq_self_iff.mpr fun c hc => by
    simp only [ne_eq, decide_not, Bool.not_eq_true', decide_eq_false_iff_not]
    exact fun he => h (he ▸ hc)

theorem lineOf_concat_lineEnd {pushed : List UInt8} (h : lineEnd ∉ pushed) :
    lineOf (pushed ++ [lineEnd]) = lineOf pushed := by
  have htake : (pushed ++ [lineEnd]).takeWhile (· ≠ lineEnd) = pushed := by
    rw [List.takeWhile_append, if_pos (by rw [takeWhile_of_not_mem h])]
    simp
  rw [lineOf, lineOf, htake, takeWhile_of_not_mem h]

theorem lineOf_concat {pushed : List UInt8} (h : lineEnd ∉ pushed) {c : UInt8}
    (hc : c ≠ lineEnd) : lineOf (pushed ++ [c]) = edit (lineOf pushed) c := by
  have hn : lineEnd ∉ pushed ++ [c] := by
    simp only [List.mem_append, List.mem_singleton, not_or]
    exact ⟨h, hc.symm⟩
  rw [lineOf, lineOf, takeWhile_of_not_mem hn, takeWhile_of_not_mem h, List.foldl_concat]

/-! ## Pushing -/

def Typed (input : Input) (pushed : List UInt8) : Prop :=
  window input.buffer input.length = lineOf pushed

theorem Typed.length_eq {input : Input} {pushed : List UInt8} (h : Typed input pushed) :
    input.length = (lineOf pushed).length := by
  rw [← h, length_window]

variable {s : State}

@[simp] theorem pushInput_display (s : State) (c : UInt8) :
    (pushInput s c).display = s.display := by
  unfold pushInput
  split_ifs <;> simp

theorem pushInput_of_lineReady (h : s.input.lineReady = true) (c : UInt8) : pushInput s c = s := by
  simp only [pushInput, h, if_true, ite_self]

theorem typed_pushInput (hready : s.display.ready = true) (hflag : s.input.lineReady = false)
    {pushed : List UInt8} (hn : lineEnd ∉ pushed) (ht : Typed s.input pushed) (c : UInt8) :
    Typed (pushInput s c).input (pushed ++ [c]) ∧
      ((pushInput s c).input.lineReady = true ↔ lineEnd ∈ pushed ++ [c]) := by
  have hlen := ht.length_eq
  have hmem : lineEnd ∈ pushed ++ [c] ↔ c = lineEnd := by
    simp only [List.mem_append, hn, List.mem_singleton, false_or, eq_comm]
  rw [hmem]
  unfold Typed pushInput at *
  simp only [hready, hflag, Bool.not_true, Bool.false_eq_true, if_false]
  by_cases hc : c = lineEnd
  · simp only [hc, if_true, putchar_input, and_true]
    rw [lineOf_concat_lineEnd hn, ← ht]
    exact window_update_of_le _ (Nat.le_refl _) _
  rw [lineOf_concat hn hc, edit]
  simp only [hc, if_false, iff_false]
  by_cases hb : c = rubout
  · by_cases h0 : s.input.length = 0
    · simp only [hb, h0, if_true]
      rw [h0] at ht
      simp [← ht, hflag]
    · simp only [hb, h0, if_true, if_false, putchar_input]
      rw [window_update_of_le _ (Nat.le_refl _), ← ht, dropLast_window]
      exact ⟨rfl, by simp⟩
  · by_cases hfull : s.input.length + 1 ≥ inputBufferSize
    · have hge : ¬ (lineOf pushed).length < 255 := by
        rw [inputBufferSize] at hfull
        omega
      simp only [hb, hfull, hge, if_true, if_false]
      exact ⟨ht, by simp [hflag]⟩
    · have hlt : (lineOf pushed).length < 255 := by
        rw [inputBufferSize] at hfull
        omega
      simp only [hb, hfull, hlt, if_true, if_false, putchar_input]
      rw [window_update_of_le _ (Nat.le_refl _), window_update_succ, ht]
      exact ⟨rfl, by simp⟩

/-! ## Reading -/

/-- What a call has done so far with the line of the pushed characters. After its test
has found a line, the line is complete; from `terminate` on, the buffer holds it. -/
def Progress (r : Call) (pushed : List UInt8) : Prop :=
  match r.place with
  | .idle | .check | .test | .terminateEmpty | .returnZero | .returnLength => True
  | .takeLength => lineEnd ∈ pushed
  | .capLength => lineEnd ∈ pushed ∧ r.copyLen = (lineOf pushed).length
  | .copy =>
    lineEnd ∈ pushed ∧ r.copyLen = (lineOf pushed).length ∧ r.i ≤ r.copyLen ∧
      window r.buffer r.i = (lineOf pushed).take r.i
  | .terminate =>
    lineEnd ∈ pushed ∧ r.copyLen = (lineOf pushed).length ∧
      window r.buffer r.copyLen = lineOf pushed
  | .clearLength | .clearBuffer | .clearReady => Holds r.buffer r.copyLen pushed

def Clearing (place : Place) : Prop := place = .clearBuffer ∨ place = .clearReady

/-- Each returned line is that of the characters pushed at its place in the sequence. -/
def Delivered (returned : List Returned) (past : List (List UInt8)) : Prop :=
  List.Forall₂ (fun o pushed => Holds o.buffer o.length pushed) returned past

/-- The lines returned are those of the pushes before the flag was cleared, in order;
between clearing and returning, the last of them is still in the call. -/
def Returning (r : Call) (h : Seen) : Prop :=
  if r.place = .returnLength then
    ∃ past pushed, h.past = past ++ [pushed] ∧ Holds r.buffer r.copyLen pushed ∧
      Delivered h.returned past
  else Delivered h.returned h.past

structure LineInv (s : System) (h : Seen) : Prop where
  ready : s.console.display.ready = true
  room : s.call.place ≠ .idle → inputBufferSize ≤ s.call.size
  flag : s.console.input.lineReady = true ↔ lineEnd ∈ h.current
  typed : ¬ Clearing s.call.place → Typed s.console.input h.current
  cleared : Clearing s.call.place → s.console.input.length = 0
  progress : Progress s.call h.current
  returning : Returning s.call h

variable {sys : System} {h : Seen}

theorem Holds.push {buffer : Mem UInt8} {length : ℕ} {pushed : List UInt8}
    (hp : Holds buffer length pushed) (c : UInt8) : Holds buffer length (pushed ++ [c]) := by
  have hline := lineOf_append_of_mem hp.ended [c]
  exact ⟨List.mem_append_left _ hp.ended, hline ▸ hp.length_eq, hline ▸ hp.window_eq, hp.terminated⟩

theorem Progress.push {r : Call} {pushed : List UInt8} (hp : Progress r pushed) (c : UInt8) :
    Progress r (pushed ++ [c]) := by
  have hmem (hm : lineEnd ∈ pushed) : lineEnd ∈ pushed ++ [c] := List.mem_append_left _ hm
  have hline (hm : lineEnd ∈ pushed) := lineOf_append_of_mem hm [c]
  obtain ⟨place, buffer, size, copyLen, i⟩ := r
  cases place with
  | idle | check | test | terminateEmpty | returnZero | returnLength => trivial
  | takeLength => exact hmem hp
  | capLength => exact ⟨hmem hp.1, hline hp.1 ▸ hp.2⟩
  | copy =>
    obtain ⟨hm, hl, hi, hw⟩ := hp
    exact ⟨hmem hm, hline hm ▸ hl, hi, hline hm ▸ hw⟩
  | terminate =>
    obtain ⟨hm, hl, hw⟩ := hp
    exact ⟨hmem hm, hline hm ▸ hl, hline hm ▸ hw⟩
  | clearLength | clearBuffer | clearReady => exact Holds.push hp c

theorem Progress.ended {r : Call} {pushed : List UInt8} (hp : Progress r pushed)
    (hc : Clearing r.place) : lineEnd ∈ pushed := by
  obtain ⟨place, buffer, size, copyLen, i⟩ := r
  obtain rfl | rfl := hc <;> exact Holds.ended hp

theorem LineInv.push (hi : LineInv sys h) (c : UInt8) :
    LineInv { sys with console := pushInput sys.console c }
      { h with current := h.current ++ [c] } := by
  obtain ⟨hready, hroom, hflag, htyped, hcleared, hprog, hret⟩ := hi
  by_cases hm : lineEnd ∈ h.current
  · have hsame := pushInput_of_lineReady (hflag.mpr hm) c
    have hm' : lineEnd ∈ h.current ++ [c] := List.mem_append_left _ hm
    rw [hsame]
    refine ⟨hready, hroom, by simp [hflag, hm], fun hc => ?_, hcleared, hprog.push c, hret⟩
    exact (htyped hc).trans (lineOf_append_of_mem hm [c]).symm
  · have hnc : ¬ Clearing sys.call.place := fun hc => hm (hprog.ended hc)
    have hoff : sys.console.input.lineReady = false := by simpa [hm] using hflag
    obtain ⟨ht, hf⟩ := typed_pushInput hready hoff hm (htyped hnc) c
    exact ⟨by rw [pushInput_display]; exact hready, hroom, hf, fun _ => ht,
      fun hc => absurd hc hnc, hprog.push c, hret⟩

theorem LineInv.call (hi : LineInv sys h) (hidle : sys.call.place = .idle) (buffer : Mem UInt8)
    {size : ℕ} (hroom : inputBufferSize ≤ size) :
    LineInv { sys with call := ⟨.check, buffer, size, 0, 0⟩ } h := by
  have hnc : ¬ Clearing sys.call.place := by simp [Clearing, hidle]
  refine ⟨hi.ready, fun _ => hroom, hi.flag, fun _ => hi.typed hnc, ?_, trivial, ?_⟩
  · simp [Clearing]
  · have := hi.returning
    simpa [Returning, hidle] using this

theorem observe_step_of_ne {h : Seen} {s : System} {r : Option Returned}
    (hp : s.call.place ≠ .clearReady) (hr : ∀ o ∈ r, o.found = false) :
    observe h (s, .step, r) = h := by
  have hfilter : r.filter (·.found) = none := by
    cases r with
    | none => rfl
    | some o => simp [hr o rfl]
  simp [observe, hp, hfilter]

section Statements

variable {console : State} {place : Place} {buffer buffer' : Mem UInt8}
  {size copyLen copyLen' i : ℕ} {out : Option Returned}

def Place.Plain (place : Place) : Prop := ¬ Clearing place ∧ place ≠ .returnLength

instance : DecidablePred Clearing := fun _ => inferInstanceAs (Decidable (_ ∨ _))
instance : DecidablePred Place.Plain := fun _ => inferInstanceAs (Decidable (_ ∧ _))

theorem LineInv.plain (place' : Place) (i' : ℕ)
    (hi : LineInv ⟨console, ⟨place, buffer, size, copyLen, i⟩⟩ h)
    (hstep : Console.step ⟨console, ⟨place, buffer, size, copyLen, i⟩⟩ =
      (out, ⟨console, ⟨place', buffer', size, copyLen', i'⟩⟩))
    (hprog : Progress ⟨place', buffer', size, copyLen', i'⟩ h.current)
    (hout : ∀ o ∈ out, o.found = false) (hidle : place ≠ .idle) (hp : place.Plain)
    (hp' : place'.Plain) :
    LineInv (Console.step ⟨console, ⟨place, buffer, size, copyLen, i⟩⟩).2
      (observe h (⟨console, ⟨place, buffer, size, copyLen, i⟩⟩, .step,
        (Console.step ⟨console, ⟨place, buffer, size, copyLen, i⟩⟩).1)) := by
  rw [observe_step_of_ne (fun he => hp.1 (.inr he)) (hstep ▸ hout), hstep]
  refine ⟨hi.ready, fun _ => hi.room hidle, hi.flag, fun _ => hi.typed hp.1,
    fun hc => absurd hc hp'.1, hprog, ?_⟩
  have := hi.returning
  simp only [Returning, hp.2, if_false] at this
  simpa only [Returning, hp'.2, if_false] using this

theorem LineInv.copy (hi : LineInv ⟨console, ⟨.copy, buffer, size, copyLen, i⟩⟩ h) :
    LineInv (Console.step ⟨console, ⟨.copy, buffer, size, copyLen, i⟩⟩).2
      (observe h (⟨console, ⟨.copy, buffer, size, copyLen, i⟩⟩, .step,
        (Console.step ⟨console, ⟨.copy, buffer, size, copyLen, i⟩⟩).1)) := by
  obtain ⟨hm, hl, hle, hw⟩ : lineEnd ∈ h.current ∧ copyLen = (lineOf h.current).length ∧
    i ≤ copyLen ∧ window buffer i = (lineOf h.current).take i := hi.progress
  have hplain : Place.copy.Plain := by decide
  have htyped : Typed console.input h.current := hi.typed hplain.1
  have hlen := htyped.length_eq
  by_cases hlt : i < copyLen
  · have hnext : window (Function.update buffer i (console.input.buffer i)) (i + 1) =
        (lineOf h.current).take (i + 1) := by
      have hi' : min i console.input.length = i := by omega
      have hi'' : min (i + 1) console.input.length = i + 1 := by omega
      rw [window_update_succ, hw, ← htyped, take_window, take_window, hi', hi'', window_succ]
    exact hi.plain .copy (i + 1) (if_pos hlt) ⟨hm, hl, hlt, hnext⟩ (by simp)
      (by decide) hplain hplain
  · have heq : i = copyLen := by omega
    have hall : window buffer copyLen = lineOf h.current := by
      rw [← heq, hw, heq, hl, List.take_length]
    exact hi.plain .terminate _ (if_neg hlt) ⟨hm, hl, hall⟩ (by simp) (by decide) hplain
      (by decide)

theorem LineInv.clearReady (hi : LineInv ⟨console, ⟨.clearReady, buffer, size, copyLen, i⟩⟩ h) :
    LineInv ⟨{ console with input.lineReady := false }, ⟨.returnLength, buffer, size, copyLen, i⟩⟩
      ⟨[], h.past ++ [h.current], h.returned⟩ where
  ready := hi.ready
  room _ := hi.room (by simp)
  flag := by simp
  typed _ := by
    have h0 : console.input.length = 0 := hi.cleared (.inr rfl)
    simp [Typed, h0]
  cleared hc := by simp [Clearing] at hc
  progress := trivial
  returning := ⟨h.past, h.current, rfl, hi.progress, hi.returning⟩

theorem LineInv.returnLength
    (hi : LineInv ⟨console, ⟨.returnLength, buffer, size, copyLen, i⟩⟩ h) :
    LineInv ⟨console, ⟨.idle, buffer, size, copyLen, i⟩⟩
      { h with returned := h.returned ++ [⟨true, buffer, copyLen⟩] } := by
  obtain ⟨past, pushed, hpast, hline, hall⟩ : ∃ past pushed, h.past = past ++ [pushed] ∧
    Holds buffer copyLen pushed ∧ Delivered h.returned past := hi.returning
  refine ⟨hi.ready, fun hne => absurd rfl hne, hi.flag, fun _ => hi.typed (by simp [Clearing]),
    fun hc => by simp [Clearing] at hc, trivial, ?_⟩
  show Delivered (h.returned ++ _) h.past
  rw [hpast]
  exact List.rel_append hall (.cons hline .nil)

/-- A statement keeps the invariant. What was found stays in the input buffer until it is
copied, and the flag is cleared only after the copy is complete. -/
theorem LineInv.step (hi : LineInv sys h) :
    LineInv (Console.step sys).2 (observe h (sys, .step, (Console.step sys).1)) := by
  obtain ⟨console, ⟨place, buffer, size, copyLen, i⟩⟩ := sys
  cases place with
  | idle =>
    rw [observe_step_of_ne (by simp) (by simp [Console.step])]
    exact hi
  | check =>
    by_cases h0 : size = 0
    · exact hi.plain .idle _ (if_pos h0) trivial (by simp) (by decide) (by decide)
        (by decide)
    · exact hi.plain .test _ (if_neg h0) trivial (by simp) (by decide) (by decide)
        (by decide)
  | test =>
    cases hl : console.input.lineReady
    · exact hi.plain .terminateEmpty _ (if_pos (by rw [hl]; rfl)) trivial (by simp)
        (by decide) (by decide) (by decide)
    · exact hi.plain .takeLength _ (if_neg (by simp [hl])) (hi.flag.mp hl) (by simp)
        (by decide) (by decide) (by decide)
  | terminateEmpty =>
    exact hi.plain .returnZero _ rfl trivial (by simp) (by decide) (by decide) (by decide)
  | returnZero =>
    exact hi.plain .idle _ rfl trivial (by simp) (by decide) (by decide) (by decide)
  | takeLength =>
    have htyped : Typed console.input h.current := hi.typed (by simp [Clearing])
    exact hi.plain .capLength _ rfl ⟨hi.progress, htyped.length_eq⟩ (by simp) (by decide)
      (by decide) (by decide)
  | capLength =>
    obtain ⟨hm, hl⟩ : lineEnd ∈ h.current ∧ copyLen = (lineOf h.current).length := hi.progress
    have hroom : inputBufferSize ≤ size := hi.room (by simp)
    have hle := length_lineOf_le h.current
    -- a line has at most 255 characters, so the room is never too small
    have hcap : (if copyLen ≥ size then size - 1 else copyLen) = copyLen :=
      if_neg (by rw [inputBufferSize] at hroom; omega)
    exact hi.plain .copy _ rfl ⟨hm, hcap.trans hl, Nat.zero_le _, rfl⟩ (by simp)
      (by decide) (by decide) (by decide)
  | copy => exact hi.copy
  | terminate =>
    obtain ⟨hm, hl, hw⟩ : lineEnd ∈ h.current ∧ copyLen = (lineOf h.current).length ∧
      window buffer copyLen = lineOf h.current := hi.progress
    exact hi.plain .clearLength _ rfl
      ⟨hm, hl, (window_update_of_le _ (Nat.le_refl _) _).trans hw, Function.update_self ..⟩
      (by simp) (by decide) (by decide) (by decide)
  | clearLength =>
    rw [observe_step_of_ne (by simp) (by simp [Console.step])]
    exact ⟨hi.ready, fun _ => hi.room (by simp), hi.flag, fun hc => absurd (.inl rfl) hc,
      fun _ => rfl, hi.progress, hi.returning⟩
  | clearBuffer =>
    rw [observe_step_of_ne (by simp) (by simp [Console.step])]
    exact ⟨hi.ready, fun _ => hi.room (by simp), hi.flag, fun hc => absurd (.inr rfl) hc,
      fun _ => hi.cleared (.inl rfl), hi.progress, hi.returning⟩
  | clearReady => simpa [Console.step, observe] using hi.clearReady
  | returnLength => exact hi.returnLength

end Statements

/-! ## Runs -/

/-- No call of `wnu_console_readline` in progress. -/
def noCall : Call := ⟨.idle, fun _ => 0, 0, 0, 0⟩

theorem LineInv.exec (hi : LineInv sys h) {e : Event} (he : e.Roomy) :
    LineInv (Console.exec sys e).2 (observe h (sys, e, (Console.exec sys e).1)) := by
  cases e with
  | push c => exact hi.push c
  | call buffer size =>
    by_cases hidle : sys.call.place = .idle
    · simp only [Console.exec, hidle, if_true]
      exact hi.call hidle buffer he
    · simp only [Console.exec, hidle, if_false]
      exact hi
  | step => exact hi.step

theorem LineInv.length_le (hi : LineInv sys h) : sys.console.input.length ≤ 255 := by
  by_cases hc : Clearing sys.call.place
  · rw [hi.cleared hc]
    exact Nat.zero_le _
  · rw [(hi.typed hc).length_eq]
    exact length_lineOf_le _

end Wnu.Console
