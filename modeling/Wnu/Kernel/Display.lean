import Wnu.Console.Display
import Wnu.Kernel.Boot

/-! # What is on the screen

The screen is that of a terminal that is fed with everything that is printed and with the
echo of what is typed, wherever the keys fall between the characters. What the parts of
the kernel print gets there in the order in which they print it, and nothing is lost.
-/

namespace Wnu.Kernel

open Memory Text Runs

variable (m : Machine) {s : State}

/-! ## Tasks -/

def Task.leaves (task : Task) (s : State) : List Task := (perform m task { s with todo := [] }).todo

def done (s : State) : Input → List Task
  | .key _ => []
  | .step _ => s.todo.head?.toList

def added (s : State) : Input → List Task
  | .key _ => []
  | .step env =>
    match s.todo with
    | [] => (advance m env s).2.todo
    | task :: _ => task.leaves m s

def Orderly (todo : List Task) : Prop :=
  (∀ task ∈ todo, ∃ c, task = .putchar c) ∨ todo.length ≤ 1

variable {m}

theorem todo_perform_eq (task : Task) (s : State) (todo : List Task) :
    (perform m task { s with todo := todo }).todo = task.leaves m s ++ todo := by
  cases task with
  | putchar c => rfl
  | clear => rfl
  | ping | udp | lsblk =>
    simp only [Task.leaves, perform, driverStep, listDevices, List.append_nil]

theorem mem_printing {bytes : List UInt8} : ∀ task ∈ printing bytes, ∃ c, task = .putchar c := by
  rintro task htask
  obtain ⟨c, -, rfl⟩ := List.mem_map.mp htask
  exact ⟨c, rfl⟩

theorem mem_leaves {task : Task} {s : State} :
    ∀ t ∈ task.leaves m s, ∃ c, t = .putchar c := by
  cases task with
  | putchar c => exact fun t ht => absurd ht List.not_mem_nil
  | clear => exact fun t ht => absurd ht List.not_mem_nil
  | ping | udp | lsblk =>
    simp only [Task.leaves, perform, driverStep, listDevices, List.append_nil]
    exact mem_printing

theorem orderly_tasks (output : Shell.Output) : Orderly (tasks output) := by
  cases output with
  | console bytes => exact .inl mem_printing
  | clear | ping | udp | lsblk => exact .inr (Nat.le_refl 1)

theorem orderly_advance (h : s.todo = []) (env : Shell.Surroundings) :
    Orderly (advance m env s).2.todo := by
  obtain ⟨console, shell, nic, table, sataReads, todo, place⟩ := s
  obtain rfl : todo = [] := h
  cases place with
  | poll | round =>
    simp only [advance, driverStep, List.append_nil]
    exact .inl mem_printing
  | test =>
    simp only [advance]
    split <;> exact .inr (Nat.zero_le 1)
  | read => exact .inr (Nat.zero_le 1)
  | execute => exact orderly_tasks _
  | prompt => exact .inl mem_printing

theorem orderly_exec (h : Orderly s.todo) (i : Input) : Orderly (exec m s i).2.todo := by
  cases i with
  | key sc =>
    have htodo : (exec m s (.key sc)).2.todo = s.todo := todo_keyPressed sc s
    rwa [htodo]
  | step env =>
    cases htodo : s.todo with
    | nil =>
      have hexec : exec m s (.step env) = advance m env s := by rw [exec, htodo]
      rw [hexec]
      exact orderly_advance htodo env
    | cons task todo =>
      have hexec : (exec m s (.step env)).2.todo = task.leaves m s ++ todo := by
        rw [exec, htodo]
        exact todo_perform_eq task s todo
      rw [hexec]
      rw [htodo] at h
      rcases h with hall | hone
      · obtain ⟨c, rfl⟩ := hall task List.mem_cons_self
        exact .inl fun t ht => hall t (List.mem_cons_of_mem _ ht)
      · obtain rfl : todo = [] := List.eq_nil_of_length_eq_zero (by simpa using hone)
        rw [List.append_nil]
        exact .inl mem_leaves

theorem done_exec (h : Orderly s.todo) (i : Input) :
    done s i ++ (exec m s i).2.todo = s.todo ++ added m s i := by
  cases i with
  | key sc =>
    have htodo : (exec m s (.key sc)).2.todo = s.todo := todo_keyPressed sc s
    rw [htodo, done, added, List.nil_append, List.append_nil]
  | step env =>
    cases htodo : s.todo with
    | nil =>
      have hexec : exec m s (.step env) = advance m env s := by rw [exec, htodo]
      rw [hexec, done, added, htodo]
      rfl
    | cons task todo =>
      have hexec : (exec m s (.step env)).2.todo = task.leaves m s ++ todo := by
        rw [exec, htodo]
        exact todo_perform_eq task s todo
      rw [hexec, done, added, htodo]
      rw [htodo] at h
      rcases h with hall | hone
      · obtain ⟨c, rfl⟩ := hall task List.mem_cons_self
        exact (List.append_nil _).symm
      · obtain rfl : todo = [] := List.eq_nil_of_length_eq_zero (by simpa using hone)
        rw [List.append_nil]
        rfl

/-- The tasks are done in the order in which they come up, each once. -/
theorem done_run (m : Machine) (l : Loaded) (is : List Input) :
    given (exec m) done (boot m l) is ++ (run (exec m) (boot m l) is).todo =
      given (exec m) (added m) (boot m l) is :=
  have hboot : Orderly (boot m l).todo := .inr (Nat.zero_le 1)
  queue_run (Q := fun s => Orderly s.todo) (fun _ i h => orderly_exec h i)
    (fun _ i h => done_exec h i) hboot is

/-! ## The screen -/

def Task.shown : Task → List Console.Shown
  | .putchar c => [.char c]
  | .clear => [.clear]
  | _ => []

/-- What happens to the screen: the echo of a key, or what a task does. -/
def shown (s : State) : Input → List Console.Shown
  | .key sc =>
    ((Console.scancodeChar sc).toList.flatMap (Console.echoOf s.console.console)).map .char
  | .step env => (done s (.step env)).flatMap Task.shown

end Wnu.Kernel
