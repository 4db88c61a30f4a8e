import Wnu.Kernel.Display

/-! # From the command line to the transmitter

The lines `ping` and `udp` ask for a frame. A request is made once for each of these lines,
and the network code holds it back until the gateway has answered. What it sends goes to
the transmitter, whatever the keyboard and the card do in between.
-/

namespace Wnu.Kernel

open Memory Text Runs

variable {m : Machine} {s : State}

def requestTask : Net.Kind → Task
  | .icmp => .ping
  | .udp => .udp

def requestLine : Net.Kind → List UInt8
  | .icmp => ascii "ping"
  | .udp => ascii "udp"

/-! ## Lines -/

def requestCommand : Net.Kind → Shell.Command
  | .icmp => .ping
  | .udp => .udp

open Shell in
def Asking (kind : Net.Kind) (line : List UInt8) (c : Command) : Prop :=
  c = requestCommand kind → text line = requestLine kind

theorem asking_ite {kind : Net.Kind} {line : List UInt8} {P : Prop} [Decidable P]
    {c c' : Shell.Command} (h : P → Asking kind line c) (h' : Asking kind line c') :
    Asking kind line (if P then c else c') :=
  iteInduction h fun _ => h'

theorem asking_parse (kind : Net.Kind) (line : List UInt8) :
    Asking kind line (Shell.parse line) := by
  unfold Shell.parse
  repeat' refine asking_ite (fun h => ?_) ?_
  all_goals cases kind
  all_goals rintro ⟨⟩
  · exact (stringEqual_iff _ _).mp h
  · exact (stringEqual_iff _ _).mp h

theorem parse_requestLine {kind : Net.Kind} {line : List UInt8} (h : text line = requestLine kind) :
    Shell.parse line = requestCommand kind := by
  have hstart (p : List UInt8) :
      stringStartsWith line p = decide (text p <+: requestLine kind) := by
    rw [Bool.eq_iff_iff, stringStartsWith_iff, decide_eq_true_iff, h]
  unfold Shell.parse
  simp only [stringEqual_eq, hstart, h]
  cases kind <;> rfl

theorem count_printing (kind : Net.Kind) {todo : List Task}
    (h : ∀ task ∈ todo, ∃ c, task = .putchar c) : todo.count (requestTask kind) = 0 := by
  rw [List.count_eq_zero]
  intro hmem
  obtain ⟨c, hc⟩ := h _ hmem
  cases kind <;> cases hc

theorem count_tasks (kind : Net.Kind) (sh : Shell.State) (i : Shell.Input) :
    (tasks (Shell.exec sh i).1).count (requestTask kind) =
      if text i.2 = requestLine kind then 1 else 0 := by
  obtain ⟨env, line⟩ := i
  rw [Shell.exec, Shell.execute]
  split
  · rename_i hline
    rw [parse_requestLine hline]
    cases kind <;> rfl
  · rename_i hline
    have hne : Shell.parse line ≠ requestCommand kind := fun h => hline (asking_parse kind line h)
    generalize Shell.parse line = command at hne ⊢
    cases command with
    | ping =>
      cases kind with
      | icmp => exact absurd rfl hne
      | udp => rfl
    | udp =>
      cases kind with
      | icmp => rfl
      | udp => exact absurd rfl hne
    | clear | lsblk => cases kind <;> rfl
    | _ => exact count_printing kind mem_printing

/-! ## Steps -/

/-- Between the steps: a call of `rtl8139_poll` is in progress only when a round of it is next, and
only for a line that has been executed is something else to be done than to print. -/
structure Paced (s : State) : Prop where
  polling : s.nic.polling ≠ none → s.place = .round
  todo : s.place ≠ .prompt → ∀ task ∈ s.todo, ∃ c, task = .putchar c

theorem paced_boot (m : Machine) (l : Loaded) : Paced (boot m l) where
  polling h := absurd rfl h
  todo _ _ htask := absurd htask List.not_mem_nil

theorem paced_afterDriver (m : Machine) (i : Rtl8139.Input) (h : s.todo = []) :
    Paced { driverStep m i s with place := afterDriver (driverStep m i s).nic } where
  polling hne := if_neg hne
  todo _ := by
    simp only [driverStep, h, List.append_nil]
    exact mem_printing

theorem Paced.exec (h : Paced s) (i : Input) : Paced (exec m s i).2 := by
  cases i with
  | key sc =>
    have hexec : Kernel.exec m s (.key sc) = (none, keyPressed sc s) := rfl
    rw [hexec]
    constructor
    · rw [nic_keyPressed, place_keyPressed]
      exact h.polling
    · rw [todo_keyPressed, place_keyPressed]
      exact h.todo
  | step env =>
    obtain ⟨console, shell, nic, table, sataReads, todo, place⟩ := s
    cases todo with
    | cons task todo =>
      have hrest (hplace : place ≠ .prompt) : ∀ t ∈ todo, ∃ c, t = .putchar c :=
        fun t ht => h.todo hplace t (List.mem_cons_of_mem _ ht)
      cases task with
      | putchar c => exact ⟨h.polling, hrest⟩
      | clear => exact ⟨h.polling, hrest⟩
      | lsblk =>
        refine ⟨h.polling, fun hplace => ?_⟩
        obtain ⟨c, hc⟩ := h.todo hplace .lsblk List.mem_cons_self
        cases hc
      | ping | udp =>
        have hplace : place = .prompt := by
          by_contra hne
          obtain ⟨c, hc⟩ := h.todo hne _ List.mem_cons_self
          cases hc
        subst hplace
        have hpolling : nic.polling = none := by
          by_contra hne
          cases h.polling hne
        refine ⟨fun hne => absurd ?_ hne, fun hne => absurd rfl hne⟩
        obtain ⟨driver, polling⟩ := nic
        obtain rfl : polling = none := hpolling
        rfl
    | nil =>
      cases place with
      | poll => exact paced_afterDriver m .poll rfl
      | round => exact paced_afterDriver m .round rfl
      | test =>
        have hpolling : nic.polling = none := by
          by_contra hne
          cases h.polling hne
        simp only [Kernel.exec, advance]
        split
        · exact ⟨fun hne => absurd hpolling hne, fun _ t ht => absurd ht List.not_mem_nil⟩
        · exact ⟨fun hne => absurd hpolling hne, fun _ t ht => absurd ht List.not_mem_nil⟩
      | read =>
        exact ⟨fun hne => (by cases h.polling hne), fun _ t ht => absurd ht List.not_mem_nil⟩
      | execute => exact ⟨fun hne => (by cases h.polling hne), fun hne => absurd rfl hne⟩
      | prompt => exact ⟨fun hne => (by cases h.polling hne), fun _ => mem_printing⟩

/-! ## Requests -/

def kernelOps (m : Machine) (s : State) (i : Input) : List Net.Op :=
  given (Rtl8139.exec m.nic m.card) (Rtl8139.netOps m.card) s.nic (driverInputs s i)

theorem countP_handed (kind : Net.Kind) (s : Rtl8139.State) :
    (Rtl8139.netOps m.card s .round).countP kind.requests = 0 := by
  rw [List.countP_eq_zero]
  intro op hop
  obtain ⟨h, -, rfl⟩ := List.mem_map.mp hop
  cases kind <;> exact Bool.false_ne_true

theorem requests_exec (h : Paced s) (kind : Net.Kind) (i : Input) :
    (kernelOps m s i).countP kind.requests = (done s i).count (requestTask kind) := by
  cases i with
  | key sc => rfl
  | step env =>
    obtain ⟨console, shell, nic, table, sataReads, todo, place⟩ := s
    cases todo with
    | cons task todo =>
      cases task with
      | putchar c | clear | lsblk => cases kind <;> rfl
      | ping | udp =>
        have hpolling : nic.polling = none := by
          by_contra hne
          obtain rfl : place = .round := h.polling hne
          obtain ⟨c, hc⟩ := h.todo (by simp) _ List.mem_cons_self
          cases hc
        simp only [kernelOps, driverInputs, given_cons, given_nil, Rtl8139.netOps, hpolling,
          if_true, List.append_nil]
        cases kind <;> rfl
    | nil =>
      cases place with
      | round =>
        simp only [kernelOps, driverInputs, given_cons, given_nil, List.append_nil]
        exact countP_handed kind nic
      | _ => rfl

theorem added_exec (h : Paced s) (kind : Net.Kind) (i : Input) :
    (added m s i).count (requestTask kind) =
      (exec m s i).1.toList.countP fun i => text i.2 = requestLine kind := by
  cases i with
  | key sc => rfl
  | step env =>
    obtain ⟨console, shell, nic, table, sataReads, todo, place⟩ := s
    cases todo with
    | cons task todo => exact count_printing kind mem_leaves
    | nil =>
      cases place with
      | execute =>
        have hcount := count_tasks kind shell (env, window console.call.buffer lineSize)
        have hexec : (exec m ⟨console, shell, nic, table, sataReads, [], .execute⟩ (.step env)).1 =
            some (env, window console.call.buffer lineSize) := rfl
        rw [hexec, Option.toList_some, List.countP_singleton]
        simp only [decide_eq_true_eq]
        exact hcount
      | poll | round =>
        have hplace (nic : Rtl8139.State) : afterDriver nic ≠ .prompt := by
          rw [afterDriver]
          split <;> simp
        exact count_printing kind ((h.exec (.step env)).todo (hplace _))
      | test =>
        simp only [added, exec, advance]
        split <;> rfl
      | read => rfl
      | prompt => exact count_printing kind mem_printing

/-! ## Runs -/

theorem requests_done (h : Paced s) (kind : Net.Kind) (is : List Input) :
    (given (Rtl8139.exec m.nic m.card) (Rtl8139.netOps m.card) s.nic
        (given (exec m) driverInputs s is)).countP kind.requests =
      (given (exec m) done s is).count (requestTask kind) := by
  induction is generalizing s with
  | nil => rfl
  | cons i is ih =>
    rw [given_cons, given_cons, given_append, List.countP_append, List.count_append, ← nic_exec,
      ih (h.exec i), ← requests_exec h kind i, kernelOps]

theorem added_run (h : Paced s) (kind : Net.Kind) (is : List Input) :
    (given (exec m) (added m) s is).count (requestTask kind) =
      (executed m s is).countP fun i => text i.2 = requestLine kind := by
  induction is generalizing s with
  | nil => rfl
  | cons i is ih =>
    rw [given_cons, executed_cons, List.count_append, List.countP_append, added_exec h kind i,
      ih (h.exec i)]

def nicInputs (m : Machine) (l : Loaded) (is : List Input) : List Rtl8139.Input :=
  given (exec m) driverInputs (boot m l) is

def netCalls (m : Machine) (l : Loaded) (is : List Input) : List Net.Op :=
  given (Rtl8139.exec m.nic m.card) (Rtl8139.netOps m.card) (boot m l).nic (nicInputs m l is)

def framesGiven (m : Machine) (l : Loaded) (is : List Input) : List (List UInt8) :=
  given (Rtl8139.exec m.nic m.card) (Rtl8139.framesOf m.card) (boot m l).nic (nicInputs m l is)

/-- The requests that have been made, and those that are still to be made, are those that lines
have asked for. -/
theorem requests_run (m : Machine) (l : Loaded) (kind : Net.Kind) (is : List Input) :
    (netCalls m l is).countP kind.requests +
      (run (exec m) (boot m l) is).todo.count (requestTask kind) =
    (executed m (boot m l) is).countP fun i => text i.2 = requestLine kind := by
  have hboot := paced_boot m l
  rw [netCalls, nicInputs, requests_done hboot kind is, ← List.count_append, done_run m l is,
    added_run hboot kind is]

theorem ne_send_of_mem {l : Loaded} {is : List Input} {i : Rtl8139.Input}
    (h : i ∈ nicInputs m l is) (data : Option (Mem UInt8)) (len : ℕ) : i ≠ .send data len := by
  obtain ⟨⟨s, i', out⟩, -, hi⟩ := List.mem_flatMap.mp h
  rintro rfl
  cases i' with
  | key sc => cases hi
  | step env =>
    revert hi
    simp only [driverInputs]
    split <;> simp

theorem answered_le (kind : Net.Kind) (calls : List Net.Op) :
    (Net.fromReply calls).countP kind.requests +
        (if Net.fromReply calls ≠ [] ∧ ∃ op ∈ Net.beforeReply calls, kind.requests op then 1
        else 0) ≤ calls.countP kind.requests := by
  have hsplit : Net.beforeReply calls ++ Net.fromReply calls = calls :=
    List.takeWhile_append_dropWhile
  have hcount : calls.countP kind.requests = (Net.beforeReply calls).countP kind.requests +
      (Net.fromReply calls).countP kind.requests := by
    rw [← List.countP_append, hsplit]
  have hbefore : (if Net.fromReply calls ≠ [] ∧ ∃ op ∈ Net.beforeReply calls, kind.requests op
      then 1 else 0) ≤ (Net.beforeReply calls).countP kind.requests := by
    split
    · rename_i h
      exact List.countP_pos_iff.mpr h.2
    · exact Nat.zero_le _
  omega

theorem countP_framesGiven {l : Loaded}
    (hlow : ∀ slot < 4, Rtl8139.bufferPhys m.nic slot ≤ 0xffffffff)
    (hslot : (boot m l).nic.driver.txIndex.toNat < 4) (is : List Input) (kind : Net.Kind) :
    ((framesGiven m l is).countP fun frame => Net.CarriesProtocol kind.protocol frame) =
      (Net.fromReply (netCalls m l is)).countP kind.requests +
        (if Net.fromReply (netCalls m l is) ≠ [] ∧
          ∃ op ∈ Net.beforeReply (netCalls m l is), kind.requests op then 1 else 0) := by
  have hsettled : Net.Settled (boot m l).nic.driver.net := fun h => absurd h Bool.false_ne_true
  have hshut : kind.gate (boot m l).nic.driver.net = Gate.shut := by cases kind <;> rfl
  have hpassed := Net.runCount_eq_passed (boot m l).nic.driver.mac kind hsettled (netCalls m l is)
  rw [hshut, Net.passed_map_event] at hpassed
  rw [framesGiven, Rtl8139.framesOf_run m.nic m.card hlow hslot
    fun i hi data len => ne_send_of_mem hi data len, List.countP_flatMap]
  exact hpassed

theorem txIndex_boot (m : Machine) {l : Loaded} (h : l.driver.txIndex = 0) :
    (boot m l).nic.driver.txIndex = 0 := Rtl8139.txIndex_init m.nic m.card m.pci h

/-- From the command line to the transmitter, whatever the keyboard, the card and the disks do, if
the transmit buffers lie below 4 GiB: a request is made for each line `ping`, and one for each line
`udp`, but for one that is still to be made. After the first accepted answer of the gateway a frame
is sent for each of the requests, and before it none; the requests from before count for one. All
frames, the questions for the address too, are given to the transmitter in their order, in one slot
after the other, from the first slot on. -/
theorem requests_sent (m : Machine) (l : Loaded)
    (hlow : ∀ slot < 4, Rtl8139.bufferPhys m.nic slot ≤ 0xffffffff)
    (hstatic : l.driver.txIndex = 0) (is : List Input) (kind : Net.Kind) :
    let ioBase := (boot m l).nic.driver.ioBase
    let calls := netCalls m l is
    let frames := framesGiven m l is
    let lines := (executed m (boot m l) is).countP fun i => text i.2 = requestLine kind
    calls.countP kind.requests + (run (exec m) (boot m l) is).todo.count (requestTask kind) =
        lines ∧
      (frames.countP fun frame => Net.CarriesProtocol kind.protocol frame) =
        (Net.fromReply calls).countP kind.requests +
          (if Net.fromReply calls ≠ [] ∧ ∃ op ∈ Net.beforeReply calls, kind.requests op then 1
          else 0) ∧
      (frames.countP fun frame => Net.CarriesProtocol kind.protocol frame) ≤ lines ∧
      Rtl8139.longWrites (Rtl8139.runEvents m.nic m.card (boot m l).nic (nicInputs m l is)) =
        Rtl8139.programmings m.nic ioBase 0 (Rtl8139.leaving ioBase frames) := by
  intro ioBase calls frames lines
  have hzero : (boot m l).nic.driver.txIndex = 0 := txIndex_boot m hstatic
  have hslot : (boot m l).nic.driver.txIndex.toNat < 4 := by
    rw [hzero]
    decide
  have hlines : calls.countP kind.requests +
      (run (exec m) (boot m l) is).todo.count (requestTask kind) = lines := requests_run m l kind is
  have hcount := countP_framesGiven hlow hslot is kind
  obtain ⟨c, hevents, -, hmoves⟩ := Rtl8139.moves_run m.nic m.card hlow hslot (nicInputs m l is)
  have hwrites : Rtl8139.longWrites c.events = Rtl8139.programmings m.nic ioBase
    (boot m l).nic.driver.txIndex.toNat (Rtl8139.leaving ioBase frames) := hmoves.writes
  refine ⟨hlines, hcount, ?_, ?_⟩
  · rw [hcount]
    exact (answered_le kind calls).trans (hlines ▸ Nat.le_add_right _ _)
  · rw [hevents, hwrites, hzero]
    rfl

/-- `ping` is typed and executed: the request is made, and the question for the address of the
gateway is given to the transmitter and programmed in its place. -/
theorem requests_sent_ping :
    let driver := (boot silentMachine smallScreen).nic.driver
    let calls := netCalls silentMachine smallScreen pingTyped
    (executed silentMachine (boot silentMachine smallScreen) pingTyped).map (fun i => text i.2) =
        [ascii "ping"] ∧
      calls.countP Net.Kind.icmp.requests +
          (run (exec silentMachine) (boot silentMachine smallScreen) pingTyped).todo.count
            (requestTask .icmp) = 1 ∧
      framesGiven silentMachine smallScreen pingTyped = [Net.arpRequestFrame driver.mac] ∧
      Rtl8139.longWrites (Rtl8139.runEvents silentMachine.nic silentMachine.card
          (boot silentMachine smallScreen).nic (nicInputs silentMachine smallScreen pingTyped)) =
        Rtl8139.programming silentMachine.nic driver.ioBase 0 (Net.arpRequestFrame driver.mac) := by
  intro driver calls
  have hlow : ∀ slot < 4, Rtl8139.bufferPhys silentMachine.nic slot ≤ 0xffffffff := by
    decide +kernel
  have halike := alike_boot silentMachine smallScreen
  have hdriver : driver = (unprinted silentMachine smallScreen).nic.driver :=
    congrArg Rtl8139.State.driver halike.nic
  have hlines : (executed silentMachine (boot silentMachine smallScreen) pingTyped).countP
      (fun i => text i.2 = requestLine .icmp) = 1 := by
    rw [halike.executed]
    decide +kernel
  have hframes : framesGiven silentMachine smallScreen pingTyped =
      [Net.arpRequestFrame driver.mac] := by
    rw [framesGiven, nicInputs, halike.given_driverInputs, halike.nic, hdriver]
    decide +kernel
  have hcard : driver.ioBase ≠ 0 := by
    rw [hdriver]
    decide +kernel
  obtain ⟨hcalls, -, -, hwrites⟩ := requests_sent silentMachine smallScreen hlow rfl pingTyped .icmp
  refine ⟨executed_pingTyped, hcalls.trans hlines, hframes, ?_⟩
  rw [hwrites, hframes, Rtl8139.leaving, if_neg hcard]
  rfl

end Wnu.Kernel
