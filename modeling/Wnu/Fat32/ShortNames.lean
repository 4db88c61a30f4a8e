import Wnu.Fat32.Paths
import Wnu.Text.Padding

/-! # Short names

The eleven bytes of the name of an entry are decoded into a base, a dot and an extension.
Names that are padded at their ends and have no dot and no NUL can be told from what they
are decoded into.
-/

namespace Wnu.Fat32

open Text Memory Runs Vfs

variable {p : Mem UInt8} {offset : ℕ} {m m' m'' : Mount}

/-- The base and the extension are padded at their ends only, and there is no dot and no NUL. -/
structure IsName (p : Mem UInt8) (offset : ℕ) : Prop where
  base : Padded space (window (fun j => p (offset + j)) 8)
  extension : Padded space (window (fun j => p (offset + 8 + j)) 3)
  noDot : ∀ j < 11, p (offset + j) ≠ dot
  noNul : ∀ j < 11, p (offset + j) ≠ 0

/-- A name is split at its dot, and the parts are padded with spaces. -/
def encode (name : List UInt8) : List UInt8 :=
  pad space 8 (before dot name) ++ pad space 3 (behind dot name)

/-- The string that is in `name` after an entry has been decoded. -/
def decoded (offset : ℕ) (m : Mount) : List UInt8 :=
  text (window ((decodeName offset m).buffers .name) 16)

/-! ## Names -/

theorem mem_field {i n : ℕ} {c : UInt8} (h : c ∈ field p i n) : ∃ j < n, c = p (i + j) := by
  obtain ⟨j, hj, rfl⟩ := List.mem_map.mp ((List.takeWhile_prefix _).subset h)
  exact ⟨j, List.mem_range.mp hj, rfl⟩

theorem pad_field {i n : ℕ} (h : Padded space (window (fun j => p (i + j)) n)) :
    pad space n (field p i n) = window (fun j => p (i + j)) n := by
  have hpad := pad_takeWhile h
  rwa [length_window] at hpad

theorem field_eq_nil {i n : ℕ} (h : p i = space) : field p i n = [] := by
  cases n with
  | zero => rfl
  | succ n => rw [field_succ, if_pos h]

theorem dot_notMem_base (h : IsName p offset) : dot ∉ field p offset 8 := by
  intro hmem
  obtain ⟨j, hj, heq⟩ := mem_field hmem
  exact h.noDot j (by omega) heq.symm

theorem split_shortName (h : IsName p offset) :
    before dot (shortName p offset) = field p offset 8 ∧
      behind dot (shortName p offset) = field p (offset + 8) 3 := by
  have hbase := dot_notMem_base h
  rw [shortName]
  split
  · rename_i hext
    rw [List.append_nil, field_eq_nil hext]
    exact ⟨before_of_notMem hbase, behind_of_notMem hbase⟩
  · exact ⟨before_append hbase, behind_append hbase⟩

theorem encode_shortName (h : IsName p offset) :
    encode (shortName p offset) = window (fun j => p (offset + j)) 11 := by
  obtain ⟨hbefore, hbehind⟩ := split_shortName h
  have hext : (fun j => p (offset + (8 + j))) = fun j => p (offset + 8 + j) := by
    funext j
    rw [Nat.add_assoc]
  rw [encode, hbefore, hbehind, pad_field h.base, pad_field h.extension, window_add _ 8 3, hext]

example : encode (ascii "KERNEL.BIN") = ascii "KERNEL  BIN" := by decide

theorem ne_zero_of_mem_shortName (h : IsName p offset) {c : UInt8}
    (hc : c ∈ shortName p offset) : c ≠ 0 := by
  rw [shortName] at hc
  rcases List.mem_append.mp hc with hbase | hrest
  · obtain ⟨j, hj, rfl⟩ := mem_field hbase
    exact h.noNul j (by omega)
  split at hrest
  · exact absurd hrest List.not_mem_nil
  rcases List.mem_cons.mp hrest with rfl | hext
  · decide
  · obtain ⟨j, hj, rfl⟩ := mem_field hext
    rw [Nat.add_assoc]
    exact h.noNul (8 + j) (by omega)

theorem decoded_eq (h : IsName (m.buffers .clusterBuf) offset) :
    decoded offset m = shortName (m.buffers .clusterBuf) offset := by
  have hlength := length_shortName_le (m.buffers .clusterBuf) offset
  rw [decoded, (wrote_decodeName offset m).text_window (by omega)]
  exact text_eq_self fun c hc => ne_zero_of_mem_shortName h hc

/-! ## The array -/

def WithinName (m m' : Mount) : Prop :=
  ∀ a ∈ m'.accesses, a ∈ m.accesses ∨ (a.1 = .name → a.2 ≤ 12)

theorem WithinName.refl (m : Mount) : WithinName m m := fun _ ha => .inl ha

theorem WithinName.trans (h : WithinName m m') (h' : WithinName m' m'') : WithinName m m'' := by
  intro a ha
  rcases h' a ha with hold | hle
  · exact h a hold
  · exact .inr hle

theorem withinName_read (m : Mount) (i : ℕ) : WithinName m (m.touch .clusterBuf [i]) := by
  intro a ha
  rcases List.mem_cons.mp ha with rfl | hold
  · exact .inr nofun
  · exact .inl hold

theorem withinName_store (m : Mount) {i : ℕ} (hi : i ≤ 12) (x : UInt8) :
    WithinName m (m.store .name i x) := by
  intro a ha
  rcases List.mem_cons.mp ha with rfl | hold
  · exact .inr fun _ => hi
  · exact .inl hold

theorem withinName_copyPart (base n i npos : ℕ) (hn : npos + n ≤ 12) (m : Mount) :
    WithinName m (copyPart base n i npos m).2 ∧ (copyPart base n i npos m).1 ≤ npos + n := by
  induction n generalizing i npos m with
  | zero => exact ⟨.refl m, Nat.le_refl npos⟩
  | succ n ih =>
    have hread := withinName_read m (base + i)
    rw [copyPart]
    split
    · exact ⟨hread, Nat.le_add_right npos (n + 1)⟩
    · obtain ⟨hrest, hnpos⟩ := ih (i + 1) (npos + 1) (by omega)
        ((m.touch .clusterBuf [base + i]).store .name npos (m.buffers .clusterBuf (base + i)))
      refine ⟨hread.trans ((withinName_store _ (by omega) _).trans hrest), ?_⟩
      omega

theorem withinName_decodeName (offset : ℕ) (m : Mount) : WithinName m (decodeName offset m) := by
  obtain ⟨hbase, hnpos⟩ := withinName_copyPart offset 8 0 0 (by decide) m
  unfold decodeName
  generalize copyPart offset 8 0 0 m = r at hbase hnpos ⊢
  obtain ⟨npos, m₁⟩ := r
  have hread := hbase.trans (withinName_read m₁ (offset + 8))
  dsimp only at hnpos hread ⊢
  split
  · have hdot := hread.trans (withinName_store (i := npos) _ (by omega) dot)
    obtain ⟨hext, hend⟩ := withinName_copyPart (offset + 8) 3 0 (npos + 1) (by omega)
      ((m₁.touch .clusterBuf [offset + 8]).store .name npos dot)
    exact hdot.trans (hext.trans (withinName_store _ (by omega) 0))
  · exact hread.trans (withinName_store _ (by omega) 0)

/-- A name is encoded to the bytes that it has been decoded from, so it belongs to no other such
bytes, and it fits the array. -/
theorem decodeName_invertible :
    (∀ (offset : ℕ) (m : Mount), IsName (m.buffers .clusterBuf) offset →
      encode (decoded offset m) = window (fun j => m.buffers .clusterBuf (offset + j)) 11) ∧
    (∀ (offset offset' : ℕ) (m m' : Mount), IsName (m.buffers .clusterBuf) offset →
      IsName (m'.buffers .clusterBuf) offset' → decoded offset m = decoded offset' m' →
        ∀ j < 11, m.buffers .clusterBuf (offset + j) = m'.buffers .clusterBuf (offset' + j)) ∧
    ∀ (offset : ℕ) (m : Mount), ∀ a ∈ (decodeName offset m).accesses,
      a ∈ m.accesses ∨ (a.1 = .name → a.2 ≤ 12) := by
  have hencode {offset : ℕ} {m : Mount} (h : IsName (m.buffers .clusterBuf) offset) :
      encode (decoded offset m) = window (fun j => m.buffers .clusterBuf (offset + j)) 11 := by
    rw [decoded_eq h, encode_shortName h]
  refine ⟨?_, ?_, withinName_decodeName⟩
  · rintro offset m h
    exact hencode h
  · rintro offset offset' m m' h h' heq j hj
    have hwindow : window (fun j => m.buffers .clusterBuf (offset + j)) 11 =
        window (fun j => m'.buffers .clusterBuf (offset' + j)) 11 := by
      rw [← hencode h, ← hencode h', heq]
    exact List.map_inj_left.mp hwindow j (List.mem_range.mpr hj)

def kernelEntry : Mount := Mount.start (init staticTable) fun _ => ofList (ascii "KERNEL  BIN") 0

theorem decodeName_invertible_kernelEntry :
    decoded 0 kernelEntry = ascii "KERNEL.BIN" ∧
      encode (decoded 0 kernelEntry) = ascii "KERNEL  BIN" := by
  have hname : IsName (kernelEntry.buffers .clusterBuf) 0 := by
    refine ⟨?_, ?_, by decide +kernel, by decide +kernel⟩
    · unfold Padded
      decide +kernel
    · unfold Padded
      decide +kernel
  obtain ⟨hencode, -⟩ := decodeName_invertible
  exact ⟨by decide +kernel, (hencode 0 kernelEntry hname).trans (by decide +kernel)⟩

end Wnu.Fat32
