import Wnu.Net.Frames
import Wnu.Runs.While
import Wnu.Words.EndAround

/-! # The Internet checksum

The words of a buffer are added without a carry at the end, and the carries are folded in
afterwards. Up to 131072 bytes this is the complement of the one's-complement sum, and
the checksum of a buffer that holds its own checksum is zero.
-/

namespace Wnu.Net

open Memory Words Runs

/-- The big-endian words of a buffer, an odd last byte padded with zero. -/
def wordsOf : List UInt8 → List ℕ
  | [] => []
  | [a] => [256 * a.toNat]
  | a :: b :: bytes => (256 * a.toNat + b.toNat) :: wordsOf bytes

/-- A round of `while ((sum >> 16) != 0) sum = (sum & 0xffffu) + (sum >> 16);` -/
def foldRound (sum : UInt32) : Option (UInt32 ⊕ UInt32) :=
  if sum >>> 16 ≠ 0 then some (.inl ((sum &&& (0xffff : UInt32)) + (sum >>> 16)))
  else some (.inr sum)

/-- `buf[k] = (uint8_t)(sum >> 8); buf[k + 1] = (uint8_t)(sum & 0xff);` -/
def storeSum (data : List UInt8) (k : ℕ) (sum : UInt16) : List UInt8 :=
  (data.set k (sum >>> 8).toUInt8).set (k + 1) (sum &&& 0xff).toUInt8

variable {data bytes : List UInt8} {sum : UInt32} {a b : UInt8}

/-! ## Words -/

theorem wordsOf_append (h : 2 ∣ data.length) : wordsOf (data ++ bytes) =
    wordsOf data ++ wordsOf bytes := by
  fun_induction wordsOf data with
  | case1 => rfl
  | case2 a =>
    rw [List.length_singleton] at h
    exact absurd h (by decide)
  | case3 a b data ih =>
    rw [List.length_cons, List.length_cons] at h
    simp only [List.cons_append, wordsOf, ih ((Nat.dvd_add_left dvd_rfl).mp h)]

theorem lt_of_mem_wordsOf {x : ℕ} (hx : x ∈ wordsOf data) : x < 65536 := by
  fun_induction wordsOf data with
  | case1 => cases hx
  | case2 a =>
    have ha := a.toNat_lt
    rw [List.mem_singleton.mp hx]
    omega
  | case3 a b data ih =>
    have ha := a.toNat_lt
    have hb := b.toNat_lt
    rcases List.mem_cons.mp hx with rfl | hx
    · omega
    · exact ih hx

theorem sum_wordsOf_le (data : List UInt8) :
    (wordsOf data).sum ≤ 65535 * ((data.length + 1) / 2) := by
  fun_induction wordsOf data with
  | case1 => exact Nat.zero_le _
  | case2 a =>
    have ha := a.toNat_lt
    simp only [List.sum_singleton, List.length_singleton]
    omega
  | case3 a b data ih =>
    have ha := a.toNat_lt
    have hb := b.toNat_lt
    simp only [List.sum_cons, List.length_cons]
    omega

theorem standsFor_wordsOf (data : List UInt8) :
    StandsFor 65536 (wordsOf data).sum (onesSum 65536 (wordsOf data)) :=
  standsFor_onesSum (by decide) fun _ => lt_of_mem_wordsOf

theorem sum_wordsOf_lt (h : data.length ≤ 131072) : (wordsOf data).sum < 2 ^ 32 := by
  have hle := sum_wordsOf_le data
  omega

theorem toNat_shiftLeft_eight (a : UInt8) : (a.toUInt32 <<< 8).toNat = 256 * a.toNat := by
  have ha := a.toNat_lt
  rw [UInt32.toNat_shiftLeft, UInt8.toNat_toUInt32, Nat.shiftLeft_eq, Nat.mul_comm]
  exact Nat.mod_eq_of_lt (by simp only [UInt32.reduceToNat, Nat.reduceMod, Nat.reducePow]; omega)

theorem toNat_word (a b : UInt8) :
    ((a.toUInt32 <<< 8) ||| b.toUInt32).toNat = 256 * a.toNat + b.toNat := by
  rw [UInt32.toNat_or, toNat_shiftLeft_eight, UInt8.toNat_toUInt32]
  exact (Nat.two_pow_add_eq_or_of_lt (i := 8) b.toNat_lt a.toNat).symm

/-- The accumulator does not overflow. -/
theorem toNat_sumWords (h : sum.toNat + (wordsOf data).sum < 2 ^ 32) :
    (sumWords sum data).toNat = sum.toNat + (wordsOf data).sum := by
  fun_induction sumWords sum data with
  | case1 sum => rfl
  | case2 sum a =>
    simp only [wordsOf, List.sum_singleton] at h ⊢
    rw [UInt32.toNat_add, toNat_shiftLeft_eight, Nat.mod_eq_of_lt h]
  | case3 sum a b data ih =>
    simp only [wordsOf, List.sum_cons] at h ⊢
    have hadd : (sum + ((a.toUInt32 <<< 8) ||| b.toUInt32)).toNat =
        sum.toNat + (256 * a.toNat + b.toNat) := by
      rw [UInt32.toNat_add, toNat_word, Nat.mod_eq_of_lt (by omega)]
    rw [hadd, Nat.add_assoc] at ih
    exact (ih h).trans (by omega)

theorem toNat_sumWords_zero (h : data.length ≤ 131072) :
    (sumWords 0 data).toNat = (wordsOf data).sum := by
  rw [toNat_sumWords (by simpa using sum_wordsOf_lt h)]
  exact Nat.zero_add _

/-! ## Carries -/

theorem toNat_shiftRight_sixteen (x : UInt32) : (x >>> 16).toNat = x.toNat / 65536 :=
  toNat_high32 (k := 16) x rfl

theorem exits_foldCarries (sum : UInt32) : Exits foldRound sum (foldCarries sum) := by
  fun_induction foldCarries sum with
  | case1 sum hcarry ih => exact .again (if_pos hcarry) ih
  | case2 sum hno => exact .leave (if_neg hno)

theorem toNat_fold (sum : UInt32) : ((sum &&& (0xffff : UInt32)) + (sum >>> 16)).toNat =
    sum.toNat % 65536 + sum.toNat / 65536 := by
  have hlt := sum.toNat_lt
  have hlow : (sum &&& (0xffff : UInt32)).toNat = sum.toNat % 65536 :=
    toNat_low32 (k := 16) sum rfl
  rw [UInt32.toNat_add, hlow, toNat_shiftRight_sixteen, Nat.mod_eq_of_lt (by omega)]

theorem standsFor_foldCarries (sum : UInt32) :
    StandsFor 65536 sum.toNat (foldCarries sum).toNat := by
  fun_induction foldCarries sum with
  | case1 sum hcarry ih =>
    rw [toNat_fold] at ih
    exact .of_fold (by decide) ih
  | case2 sum hno =>
    apply StandsFor.of_lt
    have hzero := congrArg UInt32.toNat (not_not.mp hno)
    rw [toNat_shiftRight_sixteen] at hzero
    exact Nat.lt_of_div_eq_zero (by decide) hzero

/-! ## The checksum -/

theorem toNat_checksum (h : data.length ≤ 131072) :
    (checksum data).toNat = 65535 - onesSum 65536 (wordsOf data) := by
  have hfold := standsFor_foldCarries (sumWords 0 data)
  rw [toNat_sumWords_zero h] at hfold
  rw [checksum, UInt16.toNat_not, UInt32.toNat_toUInt16, Nat.mod_eq_of_lt hfold.lt,
    hfold.unique (standsFor_wordsOf data)]
  rfl

/-! ## Stored checksums -/

theorem toNat_high (x : UInt16) : (x >>> 8).toUInt8.toNat = x.toNat / 256 := by
  have hlt := x.toNat_lt
  have hhigh : (x >>> 8).toNat = x.toNat / 2 ^ 8 := toNat_high16 x rfl
  rw [UInt16.toNat_toUInt8, hhigh]
  omega

theorem toNat_low (x : UInt16) : (x &&& 0xff).toUInt8.toNat = x.toNat % 256 := by
  have hlow : (x &&& 0xff).toNat = x.toNat % 2 ^ 8 := toNat_low16 x rfl
  rw [UInt16.toNat_toUInt8, hlow]
  omega

theorem exists_split_of_zero {k : ℕ} (h : data[k]? = some 0) (h' : data[k + 1]? = some 0) :
    ∃ front back, front.length = k ∧ data = front ++ 0 :: 0 :: back := by
  obtain ⟨hk, hzero⟩ := List.getElem?_eq_some_iff.mp h
  obtain ⟨hk', hzero'⟩ := List.getElem?_eq_some_iff.mp h'
  refine ⟨data.take k, data.drop (k + 1 + 1), ?_, ?_⟩
  · rw [List.length_take]
    omega
  · have hdrop : data.drop k = 0 :: 0 :: data.drop (k + 1 + 1) := by
      rw [List.drop_eq_getElem_cons hk, hzero, List.drop_eq_getElem_cons hk', hzero']
    rw [← hdrop, List.take_append_drop]

theorem storeSum_append (front back : List UInt8) (sum : UInt16) :
    storeSum (front ++ 0 :: 0 :: back) front.length sum = front ++ (bytesOf sum ++ back) := by
  simp [storeSum, bytesOf]

theorem wordsOf_bytesOf (sum : UInt16) : wordsOf (bytesOf sum) = [sum.toNat] := by
  rw [bytesOf, wordsOf, wordsOf, toNat_high, toNat_low, Nat.div_add_mod]

theorem sum_wordsOf_stored {front : List UInt8} (heven : 2 ∣ front.length) (back : List UInt8)
    (sum : UInt16) : (wordsOf (front ++ (bytesOf sum ++ back))).sum =
      (wordsOf (front ++ 0 :: 0 :: back)).sum + sum.toNat := by
  have hword : 2 ∣ (bytesOf sum).length := ⟨1, rfl⟩
  rw [wordsOf_append heven, wordsOf_append heven, wordsOf_append hword, wordsOf_bytesOf]
  simp [wordsOf]
  omega

theorem checksum_storeSum {k : ℕ} (hlen : data.length ≤ 131072) (heven : 2 ∣ k)
    (h : data[k]? = some 0) (h' : data[k + 1]? = some 0) :
    checksum (storeSum data k (checksum data)) = 0 := by
  obtain ⟨front, back, rfl, rfl⟩ := exists_split_of_zero h h'
  have hones := standsFor_wordsOf (front ++ 0 :: 0 :: back)
  have hsum := toNat_checksum hlen
  generalize checksum (front ++ 0 :: 0 :: back) = sum at hsum ⊢
  have hlen' : (front ++ (bytesOf sum ++ back)).length ≤ 131072 := by simpa [bytesOf] using hlen
  have hstored := standsFor_wordsOf (front ++ (bytesOf sum ++ back))
  rw [sum_wordsOf_stored heven, hsum] at hstored
  rw [storeSum_append, ← UInt16.toNat_inj, toNat_checksum hlen',
    hstored.unique (hones.add_complement (by decide))]
  rfl

theorem ipHeader_eq_storeSum (totalLen : UInt16) (x y protocol : UInt8) :
    ipHeader totalLen [x, y] protocol =
      storeSum (ipHeaderWith totalLen [x, y] protocol 0) 10
        (checksum (ipHeaderWith totalLen [x, y] protocol 0)) := by
  simp [ipHeader, storeSum, ipHeaderWith, bytesOf]

theorem checksum_ipHeader (totalLen : UInt16) (x y protocol : UInt8) :
    checksum (ipHeader totalLen [x, y] protocol) = 0 := by
  rw [ipHeader_eq_storeSum]
  exact checksum_storeSum (by simp [ipHeaderWith, bytesOf, localIp, gatewayIp]) ⟨5, rfl⟩ rfl rfl

theorem checksum_icmpEcho : checksum (icmpEchoWith (checksum (icmpEchoWith 0))) = 0 := by
  have hstore : icmpEchoWith (checksum (icmpEchoWith 0)) =
      storeSum (icmpEchoWith 0) 2 (checksum (icmpEchoWith 0)) := by
    simp [storeSum, icmpEchoWith, bytesOf]
  rw [hstore]
  exact checksum_storeSum (by decide) ⟨1, rfl⟩ rfl rfl

theorem length_ethernetHeader (gatewayMac localMac : Mac) :
    (ethernetHeader gatewayMac localMac).length = 14 := by
  simp [ethernetHeader]

theorem length_ipHeader (totalLen : UInt16) (x y protocol : UInt8) :
    (ipHeader totalLen [x, y] protocol).length = 20 := by
  simp [ipHeader, ipHeaderWith, bytesOf, localIp, gatewayIp]

theorem drop_frame (gatewayMac localMac : Mac) (totalLen : UInt16) (x y protocol : UInt8)
    (payload : List UInt8) :
    let frame := ethernetHeader gatewayMac localMac ++ ipHeader totalLen [x, y] protocol ++ payload
    (frame.drop 14).take 20 = ipHeader totalLen [x, y] protocol ∧ frame.drop 34 = payload := by
  intro frame
  have hdrop : frame.drop 14 = ipHeader totalLen [x, y] protocol ++ payload := by
    simp only [frame, List.append_assoc]
    exact List.drop_left' (length_ethernetHeader gatewayMac localMac)
  constructor
  · rw [hdrop]
    exact List.take_left' (length_ipHeader totalLen x y protocol)
  · rw [show 34 = 14 + 20 from rfl, ← List.drop_drop, hdrop]
    exact List.drop_left' (length_ipHeader totalLen x y protocol)

/-- A receiver of the frames finds the checksums of their headers and of the ICMP message right. -/
theorem checksum_frames (gatewayMac localMac : Mac) :
    checksum (((icmpEchoFrame gatewayMac localMac).drop 14).take 20) = 0 ∧
      checksum ((icmpEchoFrame gatewayMac localMac).drop 34) = 0 ∧
      checksum (((udpFrame gatewayMac localMac).drop 14).take 20) = 0 := by
  obtain ⟨hip, hicmp⟩ := drop_frame gatewayMac localMac (20 + 8 + 32) 0x12 0x34 ipProtoIcmp
    (icmpEchoWith (checksum (icmpEchoWith 0)))
  obtain ⟨hudp, -⟩ := drop_frame gatewayMac localMac
    (20 + (8 + UInt16.ofNat message.length)) 0xab 0xcd ipProtoUdp
    (bytesOf 4444 ++ bytesOf 5555 ++ bytesOf (8 + UInt16.ofNat message.length) ++ [0, 0] ++ message)
  refine ⟨?_, ?_, ?_⟩
  · rw [icmpEchoFrame, hip, checksum_ipHeader]
  · rw [icmpEchoFrame, hicmp, checksum_icmpEcho]
  · simp only [← List.append_assoc] at hudp
    rw [udpFrame, hudp, checksum_ipHeader]

/-- Up to 131072 bytes the checksum is the complement of the one's-complement sum of the words,
and a buffer that holds its checksum at an even place has the checksum zero. The frames that are
sent do. -/
theorem checksum_spec (data : List UInt8) (h : data.length ≤ 131072) :
    (wordsOf data).sum < 2 ^ 32 ∧ (sumWords 0 data).toNat = (wordsOf data).sum ∧
      Exits foldRound (sumWords 0 data) (foldCarries (sumWords 0 data)) ∧
      checksum data = ~~~(UInt16.ofNat (onesSum 65536 (wordsOf data))) ∧
      (∀ k, 2 ∣ k → data[k]? = some 0 → data[k + 1]? = some 0 →
        checksum (storeSum data k (checksum data)) = 0) ∧
      ∀ gatewayMac localMac : Mac,
        checksum (((icmpEchoFrame gatewayMac localMac).drop 14).take 20) = 0 ∧
          checksum ((icmpEchoFrame gatewayMac localMac).drop 34) = 0 ∧
          checksum (((udpFrame gatewayMac localMac).drop 14).take 20) = 0 := by
  refine ⟨sum_wordsOf_lt h, ?_, exits_foldCarries _, ?_, ?_, checksum_frames⟩
  · exact toNat_sumWords_zero h
  · have hlt := (standsFor_wordsOf data).lt
    rw [← UInt16.toNat_inj, toNat_checksum h, UInt16.toNat_not, UInt16.toNat_ofNat',
      Nat.mod_eq_of_lt hlt]
    rfl
  · intro k heven hzero hzero'
    exact checksum_storeSum h heven hzero hzero'

/-- The IP header of the echo request. -/
theorem checksum_spec_echoHeader :
    let header := ipHeaderWith 60 [0x12, 0x34] ipProtoIcmp 0
    header.length ≤ 131072 ∧ checksum header = 0x507d ∧
      checksum (storeSum header 10 (checksum header)) = 0 := by
  intro header
  have hlen : header.length ≤ 131072 := by decide
  obtain ⟨-, -, -, hsum, hstore, -⟩ := checksum_spec header hlen
  exact ⟨hlen, hsum.trans (by decide), hstore 10 ⟨5, rfl⟩ rfl rfl⟩

end Wnu.Net
