import Mathlib.Data.Fintype.Basic

/-! # The interrupt controllers of a PC

A controller has eight lines. It keeps a request for each line on which a device has asked,
and passes on the first one that is not masked, unless the same line or one before it is
being served. Two of them are cascaded: the second one is a device on a line of the first.
They are programmed by bytes that are written to their ports.
-/

namespace Wnu.Devices

inductive Stage
  | ready
  | base
  | cascade
  | mode
  deriving DecidableEq

structure Chip where
  stage : Stage
  wantsMode : Bool
  single : Bool
  autoEnd : Bool
  base : UInt8
  mask : UInt8
  requested : Fin 8 → Bool
  served : Fin 8 → Bool

namespace Chip

def masked (c : Chip) (n : Fin 8) : Bool := (c.mask >>> n.val.toUInt8) &&& 1 ≠ 0

def output (c : Chip) : Option (Fin 8) :=
  (List.finRange 8).find? fun n =>
    c.requested n && !c.masked n && (List.finRange 8).all fun k => !(k ≤ n && c.served k)

def raise (n : Fin 8) (c : Chip) : Chip :=
  { c with requested := Function.update c.requested n true }

def acknowledge (n : Fin 8) (c : Chip) : Chip :=
  { c with
    requested := Function.update c.requested n false
    served := if c.autoEnd then c.served else Function.update c.served n true }

@[simp] theorem requested_acknowledge (n : Fin 8) (c : Chip) :
    (c.acknowledge n).requested n = false := by
  simp [acknowledge]

def endFirst (c : Chip) : Chip :=
  match (List.finRange 8).find? c.served with
  | none => c
  | some n => { c with served := Function.update c.served n false }

/-- A byte on the command port. The commands that change the order of the lines and those that
choose what is read are left out. -/
def command (v : UInt8) (c : Chip) : Chip :=
  if v &&& 0x10 ≠ 0 then
    { stage := .base
      wantsMode := v &&& 0x01 ≠ 0
      single := v &&& 0x02 ≠ 0
      autoEnd := false
      base := c.base
      mask := 0
      requested := fun _ => false
      served := fun _ => false }
  else if v = 0x20 then c.endFirst
  else c

def data (v : UInt8) (c : Chip) : Chip :=
  match c.stage with
  | .ready => { c with mask := v }
  | .base =>
    { c with
      base := v &&& 0xf8
      stage := if !c.single then .cascade else if c.wantsMode then .mode else .ready }
  | .cascade => { c with stage := if c.wantsMode then .mode else .ready }
  | .mode => { c with autoEnd := v &&& 0x02 ≠ 0, stage := .ready }

end Chip

structure Pics where
  master : Chip
  slave : Chip

namespace Pics

def cascadeLine : Fin 8 := 2

def keyboardLine : Fin 8 := 1

def keyboard : Fin 16 := Fin.castAdd 8 keyboardLine

def outb (port : UInt16) (v : UInt8) (p : Pics) : Pics :=
  if port = 0x20 then { p with master := p.master.command v }
  else if port = 0x21 then { p with master := p.master.data v }
  else if port = 0xa0 then { p with slave := p.slave.command v }
  else if port = 0xa1 then { p with slave := p.slave.data v }
  else p

def outs (writes : List (UInt16 × UInt8)) (p : Pics) : Pics :=
  writes.foldl (fun p w => p.outb w.1 w.2) p

def raise (n : Fin 16) (p : Pics) : Pics :=
  if h : n.val < 8 then { p with master := p.master.raise ⟨n, h⟩ }
  else { p with slave := p.slave.raise ⟨n - 8, by omega⟩ }

def cascaded (p : Pics) : Chip :=
  if p.slave.output.isSome then p.master.raise cascadeLine else p.master

/-- The vector of the interrupt that the processor takes, if there is one, and the controllers after
it. -/
def interrupt (p : Pics) : Option (UInt8 × Pics) :=
  match p.cascaded.output with
  | none => none
  | some n =>
    let master := p.cascaded.acknowledge n
    if n = cascadeLine then
      match p.slave.output with
      | none => some (p.slave.base ||| 7, { p with master := master })
      | some k => some (p.slave.base ||| k.val.toUInt8, ⟨master, p.slave.acknowledge k⟩)
    else some (p.master.base ||| n.val.toUInt8, { p with master := master })

end Pics

/-! ## Settings -/

def Chip.settings (c : Chip) : Chip := { c with requested := fun _ => false }

namespace Chip

theorem settings_command (v : UInt8) (c : Chip) :
    (c.command v).settings = c.settings.command v := by
  rw [command, command]
  split
  · rfl
  · split
    · rw [endFirst, endFirst]
      have hserved : c.settings.served = c.served := rfl
      rw [hserved]
      split <;> rfl
    · rfl

theorem settings_data (v : UInt8) (c : Chip) : (c.data v).settings = c.settings.data v := by
  have hstage : c.settings.stage = c.stage := rfl
  rw [data, data, hstage]
  split <;> rfl

end Chip

namespace Pics

def settings (p : Pics) : Pics := ⟨p.master.settings, p.slave.settings⟩

@[simp] theorem settings_raise (n : Fin 16) (p : Pics) : (p.raise n).settings = p.settings := by
  rw [raise]
  split <;> rfl

theorem settings_outb (port : UInt16) (v : UInt8) (p : Pics) :
    (p.outb port v).settings = p.settings.outb port v := by
  rw [outb, outb]
  split
  · rw [settings, Chip.settings_command]
    rfl
  split
  · rw [settings, Chip.settings_data]
    rfl
  split
  · rw [settings, Chip.settings_command]
    rfl
  split
  · rw [settings, Chip.settings_data]
    rfl
  · rfl

theorem outs_append (writes writes' : List (UInt16 × UInt8)) (p : Pics) :
    p.outs (writes ++ writes') = (p.outs writes).outs writes' := List.foldl_append

end Pics

/-! ## One line -/

/-- Only one line of the master is passed on, and no other is being served. -/
structure Only (n : Fin 8) (base : UInt8) (p : Pics) : Prop where
  base : p.master.base = base
  autoEnd : p.master.autoEnd = false
  masked : ∀ k, p.master.masked k = true ↔ k ≠ n
  slave : ∀ k, p.slave.masked k = true
  served : ∀ k ≠ n, p.master.served k = false

theorem find?_eq_of_unique {n : Fin 8} {q : Fin 8 → Bool} (h : ∀ k ≠ n, q k = false) :
    (List.finRange 8).find? q = if q n then some n else none := by
  split
  · rename_i hn
    obtain ⟨k, hk⟩ : ∃ k, (List.finRange 8).find? q = some k :=
      Option.isSome_iff_exists.mp (List.find?_isSome.mpr ⟨n, List.mem_finRange n, hn⟩)
    have hq : q k = true := List.find?_some hk
    rw [hk]
    by_contra hne
    have hkn : k ≠ n := fun heq => hne (congrArg some heq)
    rw [h k hkn] at hq
    cases hq
  · rename_i hn
    rw [List.find?_eq_none]
    intro k _
    by_cases hkn : k = n
    · rwa [hkn]
    · rw [h k hkn]
      exact Bool.false_ne_true

namespace Only

variable {n : Fin 8} {base : UInt8} {p : Pics}

theorem congr {p' : Pics} (h : Only n base p) (hp : p'.settings = p.settings) :
    Only n base p' := by
  have hsettings : Only n base p'.settings := by
    rw [hp]
    exact ⟨h.base, h.autoEnd, h.masked, h.slave, h.served⟩
  exact ⟨hsettings.base, hsettings.autoEnd, hsettings.masked, hsettings.slave, hsettings.served⟩

theorem raise (h : Only n base p) (k : Fin 16) : Only n base (p.raise k) :=
  h.congr (Pics.settings_raise k p)

theorem cascaded (h : Only n base p) : p.cascaded = p.master := by
  have hnone : p.slave.output = none := by
    rw [Chip.output, List.find?_eq_none]
    intro k _
    simp [h.slave k]
  rw [Pics.cascaded, hnone]
  rfl

theorem output (h : Only n base p) : p.master.output =
    if p.master.requested n && !p.master.served n then some n else none := by
  have hothers : ∀ k ≠ n, (p.master.requested k && !p.master.masked k &&
      (List.finRange 8).all fun j => !(j ≤ k && p.master.served j)) = false := by
    intro k hk
    simp [(h.masked k).mpr hk]
  have hn : p.master.masked n = false := by
    rw [← Bool.not_eq_true, h.masked n]
    exact not_not.mpr rfl
  have hfree : ((List.finRange 8).all fun j => !(j ≤ n && p.master.served j)) =
      !p.master.served n := by
    rw [Bool.eq_iff_iff, List.all_eq_true]
    constructor
    · intro hall
      simpa using hall n (List.mem_finRange n)
    · intro hn k _
      by_cases hkn : k = n
      · rw [hkn]
        simpa using hn
      · simp [h.served k hkn]
  rw [Chip.output, find?_eq_of_unique hothers, hn, hfree, Bool.not_false, Bool.and_true]

theorem interrupt (h : Only n base p) (hn : n ≠ Pics.cascadeLine) : p.interrupt =
    if p.master.requested n && !p.master.served n then
      some (base ||| n.val.toUInt8, { p with master := p.master.acknowledge n })
    else none := by
  rw [Pics.interrupt, h.cascaded, h.output]
  cases p.master.requested n && !p.master.served n
  · rfl
  · simp only [if_true, if_neg hn, h.base]

theorem acknowledge (h : Only n base p) :
    Only n base { p with master := p.master.acknowledge n } where
  base := h.base
  autoEnd := h.autoEnd
  masked := h.masked
  slave := h.slave
  served k hk := by
    rw [Chip.acknowledge, h.autoEnd]
    exact (Function.update_of_ne hk true p.master.served).trans (h.served k hk)

theorem served_acknowledge (h : Only n base p) : (p.master.acknowledge n).served n = true := by
  rw [Chip.acknowledge, h.autoEnd]
  exact Function.update_self n true p.master.served

theorem endFirst (h : Only n base p) :
    Only n base { p with master := p.master.endFirst } ∧ p.master.endFirst.served n = false ∧
      p.master.endFirst.requested = p.master.requested := by
  rw [Chip.endFirst, find?_eq_of_unique h.served]
  split
  · rename_i hnone
    have hfree : p.master.served n = false := by
      cases hserved : p.master.served n
      · rfl
      · rw [hserved] at hnone
        cases hnone
    exact ⟨h, hfree, rfl⟩
  · rename_i k hsome
    have hk : n = k := by
      split at hsome
      · exact Option.some.inj hsome
      · cases hsome
    subst hk
    refine ⟨⟨h.base, h.autoEnd, h.masked, h.slave, fun j hj => ?_⟩, ?_, rfl⟩
    · exact (Function.update_of_ne hj false p.master.served).trans (h.served j hj)
    · exact Function.update_self n false p.master.served

end Only

end Wnu.Devices
