import Deemon.Int.Bitwise
import Deemon.Int.ToBytes

/-!
# Bytes to integers

`DeeInt_FromBytes` reads words of 1, 2, 4, 8 and 16 bytes as machine integers. For every other length it strips
the sign bytes and sign bits, packs what is left into digits, and for a negative number decrements and inverts
these digits.
-/

namespace Deemon.Int

open Deemon.Run Deemon.Radix DeeInt

/-! ### Machine words -/

/-- `__hybrid_bswap`: an `n`-byte word with its bytes in reverse order. -/
def bswap : ℕ → ℕ → ℕ
  | 0, _ => 0
  | n + 1, x => x % 2 ^ 8 * (2 ^ 8) ^ n + bswap n (x / 2 ^ 8)

/-- `UNALIGNED_GET` of an `n`-byte word, swapped where its byte order is not that of the host. -/
def getWord (littleEndian : Bool) (buf : List ℕ) (n : ℕ) : ℕ :=
  let val := seg (2 ^ 8) buf 0 n
  if littleEndian then val else bswap n val

/-- The cast of a `w`-bit word to the signed type. -/
def castSigned (w x : ℕ) : ℤ := if x < 2 ^ (w - 1) then x else x - 2 ^ w

theorem bswap_seg {l l' : List ℕ} {s t n : ℕ} (hbelow : Below (2 ^ 8) l s n)
    (h : ∀ i < n, cell l' (t + i) = cell l (s + (n - 1 - i))) :
    bswap n (seg (2 ^ 8) l s n) = seg (2 ^ 8) l' t n := by
  induction n generalizing s with
  | zero => rfl
  | succ n ih =>
    have h0 : cell l s < 2 ^ 8 := hbelow 0 (by omega)
    have htop : cell l' (t + n) = cell l s := by
      rw [h n (by omega), show s + (n + 1 - 1 - n) = s by omega]
    have hrest : bswap n (seg (2 ^ 8) l (s + 1) n) = seg (2 ^ 8) l' t n := by
      refine ih (fun i hi => ?_) fun i hi => ?_
      · rw [Nat.add_assoc]
        exact hbelow (1 + i) (by omega)
      · rw [h i (by omega), show s + 1 + (n - 1 - i) = s + (n + 1 - 1 - i) by omega]
    rw [bswap, seg_mod h0, seg_div h0, hrest, seg_succ, htop, Nat.add_comm]

/-- A machine word is the number of its bytes in the order asked for. -/
theorem getWord_eq {le : Bool} {buf : List ℕ} {n : ℕ} (hlen : buf.length = n) (hbelow : Below (2 ^ 8) buf 0 n) :
    getWord le buf n = seg (2 ^ 8) (significant le buf) 0 n := by
  unfold getWord
  cases le with
  | true => rfl
  | false =>
    refine bswap_seg hbelow fun i hi => ?_
    rw [Nat.zero_add, Nat.zero_add, cell_significant (by omega), hlen]
    rfl

/-! ### Any number of bytes -/

/-- What the decoder knows once it has looked at the most significant bytes. -/
inductive ByteScan where
  /-- `goto do_return_zero` and `goto do_return_minus_one`. -/
  | early (result : DeeInt)
  /-- `got_total_bits`. -/
  | bits (isNegative : Bool) (length totalBits : ℕ)

/-- The first bit below the top where `msbByte` and `signByte` differ, or bit 0. -/
def msbTopbit (msbByte signByte : ℕ) : Option ℕ :=
  loop (fun t => some (if t ≠ 0 ∧ msbByte &&& 1 <<< t = signByte &&& 1 <<< t then .next (t - 1) else .done t)) 8 7

/-- The scan of a signed number. -/
def scanSigned (littleEndian : Bool) (buf : List ℕ) : Option ByteScan := do
  let top ← rdByte littleEndian buf (buf.length - 1)
  let isNegative := top &&& 0x80 ≠ 0
  let signByte := if isNegative then 0xff else 0x00
  let stripped ← loop (fun (length, totalBits) => do
    let byte ← rdByte littleEndian buf (length - 1)
    some (if byte = signByte then
        if length - 1 = 0 then .done none else .next (length - 1, totalBits - 8)
      else .done (some (length, totalBits)))) (buf.length + 1) (buf.length, buf.length * 8)
  match stripped with
  | none => some (.early (if signByte ≠ 0 then deeInt8bit (-1) else deeIntNewZero))
  | some (length, totalBits) => do
    let msbByte ← rdByte littleEndian buf (length - 1)
    if isNegative ∧ msbByte &&& 0x80 = 0 then do
      -- one of the stripped sign bytes is taken back for its lowest bit
      assert (length < buf.length)
      some (.bits isNegative (length + 1) (totalBits + 1))
    else do
      let topbit ← msbTopbit msbByte signByte
      let totalBits := totalBits - (7 - topbit)
      some (.bits isNegative length (if isNegative then totalBits + 1 else totalBits))

/-- The scan of an unsigned number. -/
def scanUnsigned (littleEndian : Bool) (buf : List ℕ) : Option ByteScan := do
  let (length, totalBits) ← loop (fun (length, totalBits) =>
    if length = 0 then some (.done (length, totalBits))
    else do
      let byte ← rdByte littleEndian buf (length - 1)
      some (if byte = 0 then .next (length - 1, totalBits - 8) else .done (length, totalBits)))
    (buf.length + 1) (buf.length, buf.length * 8)
  if length = 0 then some (.early deeIntNewZero)
  else do
    let msbByte ← rdByte littleEndian buf (length - 1)
    let topbit ← msbTopbit msbByte 0x00
    some (.bits false length (totalBits - (7 - topbit)))

/-- `temp`, `num_bits`, `digit_index` and `result->ob_digit` of `DeeInt_FromBytes`. -/
structure DigitWriter where
  temp : ℕ
  numBits : ℕ
  digitIndex : ℕ
  obDigit : List ℕ

/-- One round of the loop over the bytes. -/
def fillDigit (littleEndian : Bool) (buf : List ℕ) (length totalBits totalDigits byteIndex : ℕ) (w : DigitWriter) :
    Option DigitWriter := do
  let byte ← rdByte littleEndian buf byteIndex
  let byteBits := if byteIndex = length - 1 ∧ totalBits % 8 ≠ 0 then totalBits % 8 else 8
  let temp ← fits 64 (w.temp ||| (byte &&& (1 <<< byteBits - 1)) <<< w.numBits)
  let numBits := w.numBits + byteBits
  if digitBits ≤ numBits then do
    assert (w.digitIndex < totalDigits)
    let numBits := numBits - digitBits
    let obDigit ← wr w.obDigit w.digitIndex (temp &&& digitMask)
    some ⟨temp >>> digitBits &&& (1 <<< numBits - 1), numBits, w.digitIndex + 1, obDigit⟩
  else some ⟨temp, numBits, w.digitIndex, w.obDigit⟩

/-- The digits of the `totalBits` low bits of the buffer, and `num_bits` after the loop. -/
def fillDigits (littleEndian : Bool) (buf : List ℕ) (length totalBits : ℕ) : Option (ℕ × List ℕ) := do
  let totalDigits := (totalBits + (digitBits - 1)) / digitBits
  assert (1 ≤ totalDigits)
  let w ← forLoop (fillDigit littleEndian buf length totalBits totalDigits) 0 length
    ⟨0, 0, 0, (deeIntAlloc totalDigits).obDigit⟩
  assert (w.digitIndex = if w.numBits ≠ 0 then totalDigits - 1 else totalDigits)
  assert (w.numBits = totalBits - w.digitIndex * digitBits)
  assert (w.numBits < digitBits)
  if w.numBits ≠ 0 then do
    let obDigit ← wr w.obDigit w.digitIndex (w.temp &&& (1 <<< w.numBits - 1))
    some (w.numBits, obDigit)
  else some (w.numBits, w.obDigit)

/-- The decrement of the digits of a negative number. It leaves by `goto done_decr` as soon as a digit needs no
borrow; only the last digit gives `num_bits` its value where the digit is a full one. -/
def fromBytesDecr (totalDigits numBits : ℕ) (obDigit : List ℕ) : Option (ℕ × List ℕ) :=
  loop (fun (i, z) =>
    if i < totalDigits - 1 then do
      let d ← rd z i
      let z ← wr z i ((d + (2 ^ 32 - 1)) % 2 ^ 32)
      if d ≠ 0 then some (.done (numBits, z))
      else do
        let z ← wr z i ((← rd z i) &&& digitMask)
        some (.next (i + 1, z))
    else do
      let numBits := if numBits = 0 then digitBits else numBits
      let d ← rd z i
      let z ← wr z i ((d + (2 ^ 32 - 1)) % 2 ^ 32)
      if d ≠ 0 then some (.done (numBits, z))
      else do
        let z ← wr z i ((← rd z i) &&& (1 <<< numBits - 1))
        some (.done (numBits, z))) (totalDigits + 1) (0, obDigit)

/-- `dec(); inv();` of the digits of a negative number. -/
def fromBytesNegate (totalDigits numBits : ℕ) (obDigit : List ℕ) : Option (List ℕ) := do
  let (numBits, z) ← fromBytesDecr totalDigits numBits obDigit
  let z ← forLoop (fun i z => do wr z i ((← rd z i) ^^^ digitMask)) 0 totalDigits z
  let top ← rd z (totalDigits - 1)
  wr z (totalDigits - 1) (top &&& (1 <<< numBits - 1))

/-- The integer of the `totalBits` low bits of the buffer. -/
def fromBytesDigits (littleEndian : Bool) (buf : List ℕ) (isNegative : Bool) (length totalBits : ℕ) : Option DeeInt := do
  let (numBits, obDigit) ← fillDigits littleEndian buf length totalBits
  let totalDigits := (totalBits + (digitBits - 1)) / digitBits
  let obDigit ← (if isNegative then fromBytesNegate totalDigits numBits obDigit else some obDigit)
  assert (cell obDigit (totalDigits - 1) ≠ 0)
  some ⟨if isNegative then -totalDigits else totalDigits, obDigit⟩

/-- The part of `DeeInt_FromBytes` for arbitrary byte counts. -/
def fromBytesGeneral (littleEndian : Bool) (buf : List ℕ) (asSigned : Bool) : Option DeeInt := do
  match ← (if asSigned then scanSigned littleEndian buf else scanUnsigned littleEndian buf) with
  | .early z => some z
  | .bits isNegative length totalBits => fromBytesDigits littleEndian buf isNegative length totalBits

/-- `DeeInt_FromBytes`. -/
def deeIntFromBytes (buf : List ℕ) (littleEndian asSigned : Bool) : Option DeeInt :=
  match buf.length with
  | 0 => some deeIntNewZero
  | 1 =>
    let val := getWord true buf 1
    if asSigned then deeIntNewInt8 (castSigned 8 val) else deeIntNewUInt8 val
  | 2 =>
    let val := getWord littleEndian buf 2
    if asSigned then deeIntNewInt16 (castSigned 16 val) else deeIntNewUInt16 val
  | 4 =>
    let val := getWord littleEndian buf 4
    if asSigned then deeIntNewInt32 (castSigned 32 val) else deeIntNewUInt32 val
  | 8 =>
    let val := getWord littleEndian buf 8
    if asSigned then deeIntNewInt64 (castSigned 64 val) else deeIntNewUInt64 val
  | 16 =>
    let val := getWord littleEndian buf 16
    if asSigned then deeIntNewInt128 (castSigned 128 val) else deeIntNewUInt128 val
  | _ => fromBytesGeneral littleEndian buf asSigned

/-! ### The number of a byte string -/

/-- The integer that a byte string stands for. -/
def bytesToInt (littleEndian asSigned : Bool) (buf : List ℕ) : ℤ :=
  let x := seg (2 ^ 8) (significant littleEndian buf) 0 buf.length
  if asSigned then castSigned (8 * buf.length) x else x

section Decoder

variable {le : Bool} {buf : List ℕ}

theorem significant_below (h : Below (2 ^ 8) buf 0 buf.length) : Below (2 ^ 8) (significant le buf) 0 buf.length :=
  fun i hi => by
    rw [Nat.zero_add, cell_significant hi, ← Nat.zero_add (byteIndex le _ _)]
    exact h _ (byteIndex_lt le hi)

/-- The bits a byte contributes to the number. -/
theorem byte_mod {X : ℕ} {l : List ℕ} {L i b : ℕ} (hl : Below (2 ^ 8) l 0 L) (hX : seg (2 ^ 8) l 0 L = X) (hi : i < L)
    (hb : b ≤ 8) : X % 2 ^ (8 * i + b) = X % 2 ^ (8 * i) + cell l i % 2 ^ b * 2 ^ (8 * i) := by
  have hdvd : 2 ^ b ∣ 2 ^ 8 := Nat.pow_dvd_pow 2 hb
  rw [cell_eq_div_mod hl hi, hX, Nat.mod_mod_of_dvd _ hdvd, pow_add, Nat.mod_mul, ← pow_mul, Nat.mul_comm (2 ^ (8 * i))]

/-- What the digit loop keeps: the low `n` bits of the number have been taken in. -/
structure DigitWriter.Holds (w : DigitWriter) (totalDigits v n : ℕ) : Prop where
  len : w.obDigit.length = totalDigits
  lt : w.numBits < digitBits
  packed : Packed digitBits w.obDigit 0 w.digitIndex w.temp w.numBits v n

theorem fillDigit_ends {X T n i : ℕ} {w : DigitWriter} (hbelow : Below (2 ^ 8) (significant le buf) 0 buf.length)
    (hX : seg (2 ^ 8) (significant le buf) 0 buf.length = X) (hn : n = (T + 7) / 8) (hlen : n ≤ buf.length) (hi : i < n)
    (hw : w.Holds ((T + (digitBits - 1)) / digitBits) (X % 2 ^ (8 * i)) (8 * i)) :
    Ends (fillDigit le buf n T ((T + (digitBits - 1)) / digitBits) i w) fun w' =>
      w'.Holds ((T + (digitBits - 1)) / digitBits) (X % 2 ^ min (8 * (i + 1)) T) (min (8 * (i + 1)) T) := by
  have hlt := hw.lt
  have hwlen := hw.len
  generalize hb : (if i = n - 1 ∧ T % 8 ≠ 0 then T % 8 else 8) = b
  have hb8 : b ≤ 8 := by
    split_ifs at hb <;> omega
  have hmin : min (8 * (i + 1)) T = 8 * i + b := by
    split_ifs at hb <;> omega
  have hcell := byte_mod hbelow hX (show i < buf.length by omega) hb8
  have hpush := hw.packed.push (Nat.mod_lt (cell (significant le buf) i) (Nat.two_pow_pos b))
  have htemp : w.temp ||| (cell (significant le buf) i % 2 ^ b) <<< w.numBits < 2 ^ 64 :=
    lt_of_lt_of_le hpush.temp_lt (Nat.pow_le_pow_right (by norm_num) (by unfold digitBits at *; omega))
  unfold fillDigit
  rw [rdByte_of_lt (by omega), some_bind, hb]
  dsimp only
  rw [Nat.one_shiftLeft, Nat.and_two_pow_sub_one_eq_mod, fits_of_lt htemp, some_bind, hmin, hcell]
  split_ifs with h30
  · have hbits := hpush.bits
    have hdigit : w.digitIndex < (T + (digitBits - 1)) / digitBits := by
      unfold digitBits at *
      omega
    have hpop := hpush.pop h30 (by omega)
    rw [assert_of hdigit, some_bind, wr_of_lt (by omega), some_bind, and_digitMask]
    refine Ends.pure ⟨by simpa using hwlen, by unfold digitBits at *; dsimp only; omega, ?_⟩
    dsimp only
    rw [hpop.mask]
    rw [Nat.zero_add] at hpop
    exact hpop
  · exact Ends.pure ⟨hwlen, by dsimp only; omega, hpush⟩

theorem fillDigits_ends {X T n : ℕ} (hbelow : Below (2 ^ 8) (significant le buf) 0 buf.length)
    (hX : seg (2 ^ 8) (significant le buf) 0 buf.length = X) (hn : n = (T + 7) / 8) (hlen : n ≤ buf.length)
    (hT : 0 < T) :
    Ends (fillDigits le buf n T) fun r => r.1 = T % digitBits ∧ r.2.length = (T + (digitBits - 1)) / digitBits ∧
      seg digitBase r.2 0 ((T + (digitBits - 1)) / digitBits) = X % 2 ^ T ∧
      Below digitBase r.2 0 ((T + (digitBits - 1)) / digitBits) := by
  unfold fillDigits
  dsimp only
  rw [assert_of (by unfold digitBits; omega), some_bind]
  refine Ends.bind (P := fun w => w.Holds ((T + (digitBits - 1)) / digitBits) (X % 2 ^ T) T) ?_ ?_
  · have hmin : min (8 * n) T = T := by omega
    have hloop := forLoop_ends_zero (n := n)
      (f := fillDigit le buf n T ((T + (digitBits - 1)) / digitBits))
      (s := ⟨0, 0, 0, (deeIntAlloc ((T + (digitBits - 1)) / digitBits)).obDigit⟩)
      (fun i w => w.Holds ((T + (digitBits - 1)) / digitBits) (X % 2 ^ min (8 * i) T) (min (8 * i) T)) ?_ ?_
    · rwa [hmin] at hloop
    · refine ⟨by simp, by norm_num, ?_⟩
      rw [Nat.mul_zero, Nat.zero_min, pow_zero, Nat.mod_one]
      exact Packed.zero
    · intro i w hi hw
      rw [Nat.min_eq_left (show 8 * i ≤ T by omega)] at hw
      exact fillDigit_ends hbelow hX hn hlen hi hw
  intro w hw
  have hlt := hw.lt
  have hwlen := hw.len
  have hbits := hw.packed.bits
  have hindex : w.digitIndex = if w.numBits ≠ 0 then (T + (digitBits - 1)) / digitBits - 1
      else (T + (digitBits - 1)) / digitBits := by
    unfold digitBits at *
    split_ifs <;> omega
  rw [assert_of hindex, some_bind, assert_of (by unfold digitBits at *; omega), some_bind, assert_of hlt, some_bind]
  split_ifs at hindex ⊢ with hpart
  · have hlast := hw.packed.last hlt.le (by unfold digitBits at *; omega)
    rw [Nat.zero_add, show w.digitIndex + 1 = (T + (digitBits - 1)) / digitBits by unfold digitBits at *; omega] at hlast
    rw [wr_of_lt (by unfold digitBits at *; omega), some_bind, hw.packed.mask]
    exact Ends.pure ⟨by unfold digitBits at *; dsimp only; omega, by simpa using hwlen, hlast⟩
  · have hp := hw.packed
    have h0 : w.numBits = 0 := by omega
    rw [h0] at hp
    rw [hindex] at hp
    exact Ends.pure ⟨by unfold digitBits at *; dsimp only; omega, hwlen, hp.done, hp.below⟩

/-- A negative number of `T` bits whose `T`-bit form `2 ^ T - m` has a digit below the last one that is not zero,
in digits that are all full. -/
def StaleMask (T m : ℕ) : Prop := T % digitBits = 0 ∧ ¬2 ^ (T - digitBits) ∣ m

theorem fromBytesDecr_ends {z : List ℕ} {D numBits : ℕ} (hD : 0 < D) (hlen : z.length = D) (hbelow : Below digitBase z 0 D)
    (hpos : 0 < seg digitBase z 0 D) : Ends (fromBytesDecr D numBits z) fun r =>
      r.1 = (if numBits = 0 ∧ seg digitBase z 0 (D - 1) = 0 then digitBits else numBits) ∧ SameOut z r.2 0 D ∧
      seg digitBase r.2 0 D + 1 = seg digitBase z 0 D ∧ Below digitBase r.2 0 D := by
  unfold fromBytesDecr
  refine loop_ends (fun s => s.1 ≤ D - 1 ∧ SameOut z s.2 0 s.1 ∧
    ∀ j < s.1, cell z j = 0 ∧ cell s.2 j = digitBase - 1) (fun s => D - s.1) ⟨Nat.zero_le _, SameOut.refl, by simp⟩
    (by dsimp only; omega) ?_
  rintro ⟨i, y⟩ ⟨hi, hsame, hborrow⟩
  dsimp only at hi hsame hborrow ⊢
  have hylen := hsame.length
  have hcell : cell y i = cell z i := hsame.out i (by omega)
  have hd := hbelow i (by omega)
  rw [Nat.zero_add] at hd
  have hdec : cell z i ≠ 0 → (cell z i + (2 ^ 32 - 1)) % 2 ^ 32 = cell z i - 1 := fun h => by
    unfold digitBase at hd
    omega
  have hzero : seg digitBase z 0 i = 0 := seg_eq_zero fun j hj => by rw [Nat.zero_add, (hborrow j hj).1]
  have hlast := decrement_last digitBase_pos hsame hborrow (show i < D by omega) (by omega)
  by_cases hlow : i < D - 1
  · rw [if_pos hlow, rd_of_lt (by omega), some_bind, wr_of_lt (by omega), some_bind, hcell]
    by_cases h0 : cell z i = 0
    · rw [if_neg (not_not.mpr h0), h0, rd_of_lt (by simp; omega), some_bind, wr_of_lt (by simp; omega), some_bind,
        cell_set_self (by omega), and_digitMask, List.set_set]
      refine Ends.pure ⟨⟨by dsimp only; omega, ?_, fun j hj => ?_⟩, by dsimp only; omega⟩
      · exact (hsame.mono le_rfl (by omega)).trans (SameOut.set.mono (Nat.zero_le _) (by omega))
      · dsimp only at hj ⊢
        rcases Nat.lt_succ_iff_lt_or_eq.mp hj with hj | rfl
        · rw [cell_set_of_ne (by omega)]
          exact hborrow j hj
        · rw [cell_set_self (by omega), h0]
          exact ⟨rfl, rfl⟩
    · rw [if_pos h0, hdec h0]
      refine Ends.pure ⟨?_, hlast h0 hbelow⟩
      have hne : seg digitBase z 0 (D - 1) ≠ 0 := by
        have hle := cell_mul_le_seg (B := digitBase) (l := z) (s := 0) hlow
        rw [Nat.zero_add] at hle
        have := Nat.mul_pos (Nat.pos_of_ne_zero h0) (Nat.pow_pos (n := i) digitBase_pos)
        omega
      rw [if_neg fun h => hne h.2]
  · obtain rfl : i = D - 1 := by omega
    have h0 : cell z (D - 1) ≠ 0 := fun h => by
      rw [show D = D - 1 + 1 by omega, seg_succ, hzero, Nat.zero_add, Nat.zero_add, h, Nat.zero_mul] at hpos
      omega
    rw [if_neg hlow, rd_of_lt (by omega), some_bind, wr_of_lt (by omega), some_bind, hcell, if_pos h0, hdec h0]
    exact Ends.pure ⟨by simp [hzero], hlast h0 hbelow⟩

/-- Masking the last digit cuts the number. -/
theorem seg_mask {z : List ℕ} {k b : ℕ} (hlen : k < z.length) (hbelow : Below digitBase z 0 (k + 1)) :
    seg digitBase (z.set k (cell z k % 2 ^ b)) 0 (k + 1) = seg digitBase z 0 (k + 1) % 2 ^ (digitBits * k + b) := by
  have hset := seg_set_last (B := digitBase) (l := z) (s := 0) (n := k) (v := cell z k % 2 ^ b) (by omega)
  have hlow := seg_lt (hbelow.mono (show k ≤ k + 1 by omega))
  rw [Nat.zero_add] at hset
  rw [hset, seg_succ, Nat.zero_add, pow_add, two_pow_digitBits, Nat.mod_mul, Nat.add_mul_mod_self_right,
    Nat.add_mul_div_right _ _ (Nat.pow_pos digitBase_pos), Nat.mod_eq_of_lt hlow, Nat.div_eq_of_lt hlow, Nat.zero_add,
    Nat.mul_comm]

/-- The last digit counts the multiples of its place. -/
theorem last_ne_zero_iff {z : List ℕ} {k : ℕ} (hbelow : Below digitBase z 0 (k + 1)) :
    cell z k ≠ 0 ↔ digitBase ^ k ≤ seg digitBase z 0 (k + 1) := by
  have hlow := seg_lt (hbelow.mono (show k ≤ k + 1 by omega))
  refine ⟨fun h => le_seg (by rwa [Nat.zero_add]), fun h h0 => ?_⟩
  rw [seg_succ, Nat.zero_add, h0, Nat.zero_mul] at h
  omega

/-- `dec(); inv();` makes `m` of the `T` bits of `2 ^ T - m`, but for the digit that a stale mask erases. -/
theorem fromBytesNegate_ends {z : List ℕ} {T m : ℕ} (hT : 0 < T) (hmT : m < 2 ^ T)
    (hlen : z.length = (T + (digitBits - 1)) / digitBits)
    (hbelow : Below digitBase z 0 ((T + (digitBits - 1)) / digitBits))
    (hval : seg digitBase z 0 ((T + (digitBits - 1)) / digitBits) = 2 ^ T - m) :
    Ends (fromBytesNegate ((T + (digitBits - 1)) / digitBits) (T % digitBits) z) fun r =>
      r.length = (T + (digitBits - 1)) / digitBits ∧ Below digitBase r 0 ((T + (digitBits - 1)) / digitBits) ∧
      (StaleMask T m → cell r ((T + (digitBits - 1)) / digitBits - 1) = 0) ∧
      (¬StaleMask T m → seg digitBase r 0 ((T + (digitBits - 1)) / digitBits) = m) := by
  obtain ⟨k, hk⟩ : ∃ k, (T + (digitBits - 1)) / digitBits = k + 1 :=
    ⟨(T + (digitBits - 1)) / digitBits - 1, by unfold digitBits; omega⟩
  rw [hk] at hlen hbelow hval ⊢
  unfold fromBytesNegate
  refine Ends.bind (fromBytesDecr_ends (by omega) hlen hbelow (by omega)) ?_
  rintro ⟨nb, y⟩ ⟨hnb, hout, hdec, hybelow⟩
  dsimp only at hnb hout hdec hybelow ⊢
  have hylen := hout.length
  refine Ends.bind (P := fun r => SameOut y r 0 (k + 1) ∧
    ∀ i < k + 1, cell r i + cell y i + 1 = digitBase) ?_ ?_
  · refine forLoop_ends_zero (fun i r => SameOut y r 0 i ∧ ∀ j < i, cell r j + cell y j + 1 = digitBase)
      ⟨SameOut.refl, by simp⟩ ?_
    rintro i r hi ⟨hsame, hinv⟩
    have hrlen := hsame.length
    have hd := hybelow i hi
    rw [Nat.zero_add] at hd
    rw [rd_of_lt (by omega), some_bind, hsame.out i (by omega), xor_digitMask hd, wr_of_lt (by omega)]
    refine Ends.pure ⟨(hsame.mono le_rfl (by omega)).trans (SameOut.set.mono (Nat.zero_le _) (by omega)), fun j hj => ?_⟩
    rcases Nat.lt_succ_iff_lt_or_eq.mp hj with hj | rfl
    · rw [cell_set_of_ne (by omega), hinv j hj]
    · rw [cell_set_self (by omega)]
      unfold digitBase digitMask at *
      omega
  rintro r ⟨hsame, hinv⟩
  have hrlen := hsame.length
  have hrbelow : Below digitBase r 0 (k + 1) := fun i hi => by
    have := hinv i hi
    rw [Nat.zero_add]
    omega
  have hsum := seg_invert hinv
  have hzero : T % digitBits = 0 → (2 ^ (T - digitBits) ∣ m ↔ seg digitBase z 0 k = 0) := fun hfull => by
    have hlow := seg_lt (hbelow.mono (show k ≤ k + 1 by omega))
    have hmod : seg digitBase z 0 k = (2 ^ T - m) % digitBase ^ k := by
      rw [← hval, seg_add, Nat.add_mul_mod_self_left, Nat.mod_eq_of_lt hlow]
    have hT' : T = T - digitBits + digitBits := by
      unfold digitBits at *
      omega
    have hdvd : 2 ^ (T - digitBits) ∣ 2 ^ T := Nat.pow_dvd_pow 2 (Nat.sub_le _ _)
    rw [hmod, ← Nat.dvd_iff_mod_eq_zero, ← two_pow_digitBits,
      show digitBits * k = T - digitBits by unfold digitBits at *; omega]
    exact ⟨Nat.dvd_sub hdvd, fun h => (Nat.dvd_sub_iff_right hmT.le hdvd).mp h⟩
  rw [Nat.add_sub_cancel, rd_of_lt (by omega), some_bind, wr_of_lt (by omega), Nat.one_shiftLeft,
    Nat.and_two_pow_sub_one_eq_mod]
  refine Ends.pure ⟨by simpa using by omega, ?_, ?_, ?_⟩
  · exact hrbelow.set (lt_of_le_of_lt (Nat.mod_le _ _) (by simpa using hrbelow k (by omega)))
  · rintro ⟨hfull, hdvd⟩
    rw [hfull, if_neg fun h => hdvd ((hzero hfull).mpr h.2)] at hnb
    rw [cell_set_self (by omega), hnb, pow_zero, Nat.mod_one]
  · intro hstale
    rw [seg_mask (by omega) hrbelow]
    have hT' : digitBits * k + nb = T := by
      by_cases hfull : T % digitBits = 0
      · rw [hfull, if_pos ⟨rfl, (hzero hfull).mp (by_contra fun h => hstale ⟨hfull, h⟩)⟩] at hnb
        unfold digitBits at *
        omega
      · rw [if_neg fun h => hfull h.1] at hnb
        unfold digitBits at *
        omega
    have hpow : digitBase ^ (k + 1) = 2 ^ T * 2 ^ (digitBits * (k + 1) - T) := by
      rw [← pow_add, ← two_pow_digitBits]
      congr 1
      unfold digitBits at *
      omega
    have hc : 0 < 2 ^ (digitBits * (k + 1) - T) := Nat.two_pow_pos _
    have hS : seg digitBase r 0 (k + 1) = m + 2 ^ T * (2 ^ (digitBits * (k + 1) - T) - 1) := by
      rw [Nat.mul_sub, Nat.mul_one]
      have : 2 ^ T * 1 ≤ 2 ^ T * 2 ^ (digitBits * (k + 1) - T) := Nat.mul_le_mul_left _ hc
      omega
    rw [hT', hS, Nat.add_mul_mod_self_left, Nat.mod_eq_of_lt hmT]

theorem and_0x80_iff : ∀ b < 2 ^ 8, b &&& 0x80 ≠ 0 ↔ 128 ≤ b := by decide +kernel

theorem msbTopbit_zero : ∀ b < 2 ^ 8, b ≠ 0 → ∃ t < 8, msbTopbit b 0x00 = some t ∧ 2 ^ t ≤ b ∧ b < 2 ^ (t + 1) := by
  decide +kernel

theorem msbTopbit_ones : ∀ b < 2 ^ 8, b ≠ 0xff →
    ∃ t < 8, msbTopbit b 0xff = some t ∧ 2 ^ t ≤ 0xff - b ∧ 0xff - b < 2 ^ (t + 1) := by
  decide +kernel

theorem size_eq_of_lt {b t : ℕ} (hlo : 2 ^ t ≤ b) (hhi : b < 2 ^ (t + 1)) : b.size = t + 1 :=
  le_antisymm (Nat.size_le.mpr hhi) (Nat.lt_size.mpr hlo)

/-- The bytes from `length` on are `signByte`, and the one below is not. -/
structure Stripped (le : Bool) (buf : List ℕ) (signByte length totalBits : ℕ) : Prop where
  pos : 0 < length
  room : length ≤ buf.length
  bits : totalBits = length * 8
  msb : cell (significant le buf) (length - 1) ≠ signByte
  sign : ∀ i, length ≤ i → i < buf.length → cell (significant le buf) i = signByte

theorem Stripped.unsigned {X l T : ℕ} (h : Stripped le buf 0 l T) (hbelow : Below (2 ^ 8) (significant le buf) 0 buf.length)
    (hX : seg (2 ^ 8) (significant le buf) 0 buf.length = X) :
    X.size = 8 * (l - 1) + (cell (significant le buf) (l - 1)).size := by
  have hpos := h.pos
  have hle := h.room
  obtain ⟨k, hk⟩ : ∃ k, buf.length = l - 1 + (1 + k) := ⟨buf.length - l, by omega⟩
  have hhigh : seg (2 ^ 8) (significant le buf) (l - 1 + 1) k = 0 :=
    seg_eq_zero fun i hi => h.sign _ (by omega) (by omega)
  have hlow := seg_lt (hbelow.mono (show l - 1 ≤ buf.length by omega))
  rw [← pow_mul] at hlow
  rw [hk, seg_add, seg_add, seg_one, Nat.zero_add, hhigh, Nat.mul_zero, Nat.add_zero, ← pow_mul, Nat.mul_comm] at hX
  rw [← hX, size_add_mul hlow h.msb]

theorem Stripped.negative {X l T : ℕ} (h : Stripped le buf 0xff l T)
    (hbelow : Below (2 ^ 8) (significant le buf) 0 buf.length)
    (hX : seg (2 ^ 8) (significant le buf) 0 buf.length = X) :
    (2 ^ (8 * buf.length) - X - 1).size = 8 * (l - 1) + (0xff - cell (significant le buf) (l - 1)).size := by
  have hpos := h.pos
  have hle := h.room
  have hmsb := h.msb
  obtain ⟨k, hk⟩ : ∃ k, buf.length = l - 1 + (1 + k) := ⟨buf.length - l, by omega⟩
  have hhigh : seg (2 ^ 8) (significant le buf) (l - 1 + 1) k + 1 = (2 ^ 8) ^ k :=
    seg_max (by norm_num) fun i hi => h.sign _ (by omega) (by omega)
  have hlow := seg_lt (hbelow.mono (show l - 1 ≤ buf.length by omega))
  have hb := hbelow (l - 1) (by omega)
  rw [Nat.zero_add] at hb
  rw [hk, seg_add, seg_add, seg_one, Nat.zero_add] at hX
  -- the bytes of the complement: those below, the one at `length - 1`, and zeros
  generalize seg (2 ^ 8) (significant le buf) 0 (l - 1) = low at hX hlow
  generalize seg (2 ^ 8) (significant le buf) (l - 1 + 1) k = high at hX hhigh
  generalize cell (significant le buf) (l - 1) = b at hX hb hmsb ⊢
  obtain ⟨c, hc⟩ : ∃ c, c + b = 0xff := ⟨0xff - b, by omega⟩
  obtain ⟨q, hq⟩ : ∃ q, q + low + 1 = (2 ^ 8) ^ (l - 1) := ⟨(2 ^ 8) ^ (l - 1) - 1 - low, by omega⟩
  have hsum : X + (q + c * (2 ^ 8) ^ (l - 1)) + 1 = 2 ^ (8 * buf.length) := by
    rw [← hX, hk, pow_mul, pow_add, pow_add, ← hhigh]
    linear_combination hq + (2 ^ 8) ^ (l - 1) * hc
  rw [show 2 ^ (8 * buf.length) - X - 1 = q + c * (2 ^ 8) ^ (l - 1) by omega, show 0xff - b = c by omega, ← pow_mul,
    size_add_mul (by rw [pow_mul]; omega) (by omega)]

theorem scanUnsigned_ends {X : ℕ} (hbelow : Below (2 ^ 8) (significant le buf) 0 buf.length)
    (hX : seg (2 ^ 8) (significant le buf) 0 buf.length = X) :
    Ends (scanUnsigned le buf) fun r => X = 0 ∧ r = .early deeIntNewZero ∨
      0 < X ∧ r = .bits false ((X.size + 7) / 8) X.size ∧ (X.size + 7) / 8 ≤ buf.length := by
  unfold scanUnsigned
  refine Ends.bind (P := fun r => r.1 = 0 ∧ X = 0 ∨ Stripped le buf 0 r.1 r.2) ?_ ?_
  · refine loop_ends (fun s => s.1 ≤ buf.length ∧ s.2 = s.1 * 8 ∧
      ∀ i, s.1 ≤ i → i < buf.length → cell (significant le buf) i = 0) (fun s => s.1) ?_ (Nat.lt_succ_self _) ?_
    · exact ⟨le_rfl, rfl, fun i hlo hhi => by dsimp only at hlo; omega⟩
    rintro ⟨l, T⟩ ⟨hl, hT, hsign⟩
    dsimp only at hl hT hsign ⊢
    by_cases h0 : l = 0
    · rw [if_pos h0]
      refine Ends.pure (Or.inl ⟨h0, ?_⟩)
      rw [← hX]
      exact seg_eq_zero fun i hi => hsign _ (by omega) (by omega)
    · rw [if_neg h0, rdByte_of_lt (by omega), some_bind]
      by_cases hb : cell (significant le buf) (l - 1) = 0
      · rw [if_pos hb]
        refine Ends.pure ⟨⟨by dsimp only; omega, by dsimp only; omega, fun i hlo hhi => ?_⟩, by dsimp only; omega⟩
        dsimp only at hlo
        by_cases hi : i = l - 1
        · rw [hi, hb]
        · exact hsign i (by omega) hhi
      · rw [if_neg hb]
        exact Ends.pure (Or.inr ⟨by dsimp only; omega, hl, hT, hb, hsign⟩)
  rintro ⟨l, T⟩ (⟨h0, hX0⟩ | h)
  · dsimp only at h0 ⊢
    rw [if_pos h0]
    exact Ends.pure (Or.inl ⟨hX0, rfl⟩)
  · have hpos := h.pos
    have hle := h.room
    have hbits := h.bits
    have hsize := h.unsigned hbelow hX
    have hb := hbelow (l - 1) (by omega)
    rw [Nat.zero_add] at hb
    obtain ⟨t, ht8, ht, hlo, hhi⟩ := msbTopbit_zero _ hb h.msb
    rw [size_eq_of_lt hlo hhi] at hsize
    dsimp only at hpos hle hbits hsize ht ⊢
    rw [if_neg (by omega), rdByte_of_lt (by omega), some_bind, ht, some_bind]
    refine Ends.pure (Or.inr ⟨Nat.size_pos.mp (by omega), ?_, by omega⟩)
    rw [show l = (X.size + 7) / 8 by omega, show T - (7 - t) = X.size by omega]

theorem scanSigned_ends {X : ℕ} (hL : 0 < buf.length) (hbelow : Below (2 ^ 8) (significant le buf) 0 buf.length)
    (hX : seg (2 ^ 8) (significant le buf) 0 buf.length = X) :
    Ends (scanSigned le buf) fun r =>
      X < 2 ^ (8 * buf.length - 1) ∧ (X = 0 ∧ r = .early deeIntNewZero ∨
        0 < X ∧ r = .bits false ((X.size + 7) / 8) X.size ∧ (X.size + 7) / 8 ≤ buf.length) ∨
      2 ^ (8 * buf.length - 1) ≤ X ∧ (X + 1 = 2 ^ (8 * buf.length) ∧ r = .early (deeInt8bit (-1)) ∨
        ∃ T, T = (2 ^ (8 * buf.length) - X - 1).size + 1 ∧ X + 1 < 2 ^ (8 * buf.length) ∧
          r = .bits true ((T + 7) / 8) T ∧ (T + 7) / 8 ≤ buf.length) := by
  obtain ⟨k, hk⟩ : ∃ k, buf.length = k + 1 := ⟨buf.length - 1, by omega⟩
  have htop := hbelow k (by omega)
  have hlow := seg_lt (hbelow.mono (show k ≤ buf.length by omega))
  rw [Nat.zero_add] at htop
  have hsign : 128 ≤ cell (significant le buf) k ↔ 2 ^ (8 * buf.length - 1) ≤ X := by
    rw [← hX, hk, seg_succ, Nat.zero_add, show 8 * (k + 1) - 1 = 7 + 8 * k by omega, pow_add, pow_mul]
    constructor
    · intro h
      have : 2 ^ 7 * (2 ^ 8) ^ k ≤ cell (significant le buf) k * (2 ^ 8) ^ k := Nat.mul_le_mul_right _ h
      omega
    · intro h
      by_contra hlt
      have : (cell (significant le buf) k + 1) * (2 ^ 8) ^ k ≤ 2 ^ 7 * (2 ^ 8) ^ k := Nat.mul_le_mul_right _ (by omega)
      rw [Nat.add_mul] at this
      omega
  have hneg : cell (significant le buf) k &&& 0x80 ≠ 0 ↔ 2 ^ (8 * buf.length - 1) ≤ X := by
    rw [and_0x80_iff _ htop, hsign]
  unfold scanSigned
  rw [hk, Nat.add_sub_cancel, rdByte_of_lt (by omega), some_bind]
  dsimp only
  rw [← hk]
  generalize hsb : (if cell (significant le buf) k &&& 0x80 ≠ 0 then 0xff else 0x00) = signByte
  refine Ends.bind (P := fun
    | none => ∀ i < buf.length, cell (significant le buf) i = signByte
    | some (l, T) => Stripped le buf signByte l T) ?_ ?_
  · refine loop_ends (fun s => 0 < s.1 ∧ s.1 ≤ buf.length ∧ s.2 = s.1 * 8 ∧
      ∀ i, s.1 ≤ i → i < buf.length → cell (significant le buf) i = signByte) (fun s => s.1) ?_ (Nat.lt_succ_self _) ?_
    · exact ⟨hL, le_rfl, rfl, fun i hlo hhi => by dsimp only at hlo; omega⟩
    rintro ⟨l, T⟩ ⟨hpos, hl, hT, hs⟩
    dsimp only at hpos hl hT hs ⊢
    rw [rdByte_of_lt (by omega), some_bind]
    refine Ends.pure ?_
    by_cases hb : cell (significant le buf) (l - 1) = signByte
    · have hs' : ∀ i, l - 1 ≤ i → i < buf.length → cell (significant le buf) i = signByte := fun i hlo hhi => by
        by_cases hi : i = l - 1
        · rw [hi, hb]
        · exact hs i (by omega) hhi
      rw [if_pos hb]
      by_cases h1 : l - 1 = 0
      · rw [if_pos h1]
        exact fun i hi => hs' i (by omega) hi
      · rw [if_neg h1]
        exact ⟨⟨by dsimp only; omega, by dsimp only; omega, by dsimp only; omega, hs'⟩, by dsimp only; omega⟩
    · rw [if_neg hb]
      exact ⟨hpos, hl, hT, hb, hs⟩
  rintro (_ | ⟨l, T⟩) h
  · dsimp only at h ⊢
    refine Ends.pure ?_
    by_cases hn : cell (significant le buf) k &&& 0x80 ≠ 0
    · rw [if_pos hn] at hsb
      subst hsb
      have hmax := seg_max (B := 2 ^ 8) (l := significant le buf) (s := 0) (n := buf.length) (by norm_num)
        fun i hi => by rw [Nat.zero_add, h i hi]; rfl
      rw [hX, ← pow_mul] at hmax
      exact Or.inr ⟨hneg.mp hn, Or.inl ⟨hmax, rfl⟩⟩
    · rw [if_neg hn] at hsb
      subst hsb
      refine Or.inl ⟨not_le.mp fun hle => hn (hneg.mpr hle), Or.inl ⟨?_, rfl⟩⟩
      rw [← hX]
      exact seg_eq_zero fun i hi => by rw [Nat.zero_add, h i hi]
  · have hpos := h.pos
    have hle := h.room
    have hbits := h.bits
    have hmsb := h.msb
    have hb := hbelow (l - 1) (by omega)
    rw [Nat.zero_add] at hb
    dsimp only at hpos hle hbits hmsb hb ⊢
    rw [rdByte_of_lt (by omega), some_bind]
    by_cases hn : cell (significant le buf) k &&& 0x80 ≠ 0
    · rw [if_pos hn] at hsb
      subst hsb
      have hsize := h.negative hbelow hX
      have hlt : X + 1 < 2 ^ (8 * buf.length) := by
        by_contra hge
        have hzero : 2 ^ (8 * buf.length) - X - 1 = 0 := by omega
        rw [hzero, Nat.size_zero] at hsize
        have := Nat.size_pos.mpr (show 0 < 0xff - cell (significant le buf) (l - 1) by omega)
        omega
      refine (?_ : Ends _ fun r => ∃ T, T = (2 ^ (8 * buf.length) - X - 1).size + 1 ∧
        r = .bits true ((T + 7) / 8) T ∧ (T + 7) / 8 ≤ buf.length).mono fun r ⟨T, hT, hr, hfit⟩ =>
          Or.inr ⟨hneg.mp hn, Or.inr ⟨T, hT, hlt, hr, hfit⟩⟩
      by_cases h7 : cell (significant le buf) (l - 1) &&& 0x80 = 0
      · have hb7 : ¬128 ≤ cell (significant le buf) (l - 1) := fun h => (and_0x80_iff _ hb).mpr h h7
        have hl : l < buf.length := by
          by_contra hge
          rw [show l - 1 = k by omega] at h7
          exact hn h7
        rw [size_eq_of_lt (b := 0xff - cell (significant le buf) (l - 1)) (t := 7) (by omega) (by omega)] at hsize
        rw [if_pos ⟨hn, h7⟩, assert_of hl, some_bind]
        refine Ends.pure ⟨T + 1, by omega, ?_, by omega⟩
        rw [show (T + 1 + 7) / 8 = l + 1 by omega, decide_eq_true hn]
      · obtain ⟨t, ht8, ht, hlo, hhi⟩ := msbTopbit_ones _ hb hmsb
        have hb7 := (and_0x80_iff _ hb).mp h7
        have ht7 : 2 ^ t < 2 ^ 7 := by omega
        have ht7 := (Nat.pow_lt_pow_iff_right (by norm_num)).mp ht7
        rw [size_eq_of_lt hlo hhi] at hsize
        rw [if_neg fun h => h7 h.2, ht, some_bind, if_pos hn]
        refine Ends.pure ⟨T - (7 - t) + 1, by omega, ?_, by omega⟩
        rw [show (T - (7 - t) + 1 + 7) / 8 = l by omega, decide_eq_true hn]
    · rw [if_neg hn] at hsb
      subst hsb
      obtain ⟨t, ht8, ht, hlo, hhi⟩ := msbTopbit_zero _ hb hmsb
      have hsize := h.unsigned hbelow hX
      rw [size_eq_of_lt hlo hhi] at hsize
      rw [if_neg fun h => hn h.1, ht, some_bind, if_neg hn]
      refine Ends.pure (Or.inl ⟨not_le.mp fun hle => hn (hneg.mpr hle), Or.inr ⟨Nat.size_pos.mp (by omega), ?_, by omega⟩⟩)
      rw [show l = (X.size + 7) / 8 by omega, show T - (7 - t) = X.size by omega, decide_eq_false hn]

/-- An object of either sign made of digits whose last one is not zero. -/
theorem digits_canonical {z : List ℕ} {k : ℕ} (neg : Bool) (hlen : k + 1 ≤ z.length) (hz : Below digitBase z 0 (k + 1))
    (htop : cell z (k + 1 - 1) ≠ 0) :
    DeeInt.Canonical ⟨if neg = true then -((k + 1 : ℕ) : ℤ) else ((k + 1 : ℕ) : ℤ), z⟩ ∧
    DeeInt.toInt ⟨if neg = true then -((k + 1 : ℕ) : ℤ) else ((k + 1 : ℕ) : ℤ), z⟩ =
      if neg = true then -(seg digitBase z 0 (k + 1) : ℤ) else seg digitBase z 0 (k + 1) := by
  have habs : DeeInt.absSize ⟨if neg = true then -((k + 1 : ℕ) : ℤ) else ((k + 1 : ℕ) : ℤ), z⟩ = k + 1 := by
    unfold DeeInt.absSize
    dsimp only
    split_ifs <;> omega
  refine ⟨⟨⟨?_, ?_⟩, ?_⟩, ?_⟩
  · rwa [habs]
  · rwa [habs]
  · rw [habs]
    exact fun _ => htop
  · cases neg with
    | true =>
      rw [toInt_of_neg (by dsimp only; rw [if_pos rfl]; omega), mag, habs]
      rfl
    | false =>
      rw [toInt_of_nonneg (by dsimp only; rw [if_neg (by simp)]; omega), mag, habs]
      rfl

/-- The digits of a number that is not negative. -/
theorem fromBytesDigits_pos {X : ℕ} (hbelow : Below (2 ^ 8) (significant le buf) 0 buf.length)
    (hX : seg (2 ^ 8) (significant le buf) 0 buf.length = X) (hpos : 0 < X) (hfit : (X.size + 7) / 8 ≤ buf.length) :
    Ends (fromBytesDigits le buf false ((X.size + 7) / 8) X.size) fun z => z.Canonical ∧ z.toInt = X := by
  have hsize := Nat.size_pos.mpr hpos
  obtain ⟨k, hk⟩ : ∃ k, (X.size + (digitBits - 1)) / digitBits = k + 1 :=
    ⟨(X.size + (digitBits - 1)) / digitBits - 1, by unfold digitBits; omega⟩
  unfold fromBytesDigits
  refine Ends.bind (fillDigits_ends hbelow hX rfl hfit hsize) ?_
  rintro ⟨nb, z⟩ ⟨-, hlen, hval, hz⟩
  dsimp only at hlen hval hz ⊢
  rw [hk] at hlen hval hz ⊢
  rw [Nat.mod_eq_of_lt (Nat.lt_size_self X)] at hval
  have htop : cell z (k + 1 - 1) ≠ 0 := by
    rw [Nat.add_sub_cancel, last_ne_zero_iff hz, hval, ← two_pow_digitBits]
    exact Nat.lt_size.mp (by unfold digitBits at *; omega)
  rw [if_neg (by simp), some_bind, assert_of htop, some_bind]
  have hcan := digits_canonical (z := z) false (by omega) hz htop
  exact Ends.pure ⟨hcan.1, hcan.2.trans (by rw [if_neg (by simp), hval])⟩

/-- Where the digits of `-m` go wrong: a magnitude that fills its last digit and is not a power of two, or that
leaves one bit of it free and has a lower digit that is not zero. -/
def LosesDigit (m : ℕ) : Prop :=
  digitBits ∣ m.size ∧ m ≠ 2 ^ (m.size - 1) ∨ digitBits ∣ m.size + 1 ∧ ¬2 ^ (m.size + 1 - digitBits) ∣ m

/-- The same for the `T` bits that the decoder has counted. -/
theorem losesDigit_iff {m T : ℕ} (hm : 1 < m) (hT : T = (m - 1).size + 1) :
    LosesDigit m ↔ T % digitBits = 1 ∧ m ≠ 2 ^ (T - 1) ∨ StaleMask T m := by
  have hpos := Nat.size_pos.mpr (show 0 < m - 1 by omega)
  have hlt := Nat.lt_size_self (m - 1)
  have hle := Nat.lt_size.mp (show (m - 1).size - 1 < (m - 1).size by omega)
  rw [show (m - 1).size = T - 1 by omega] at hlt hle
  unfold LosesDigit StaleMask
  by_cases hm1 : m = 2 ^ (T - 1)
  · have hsize : m.size = T := by
      rw [hm1, Nat.size_pow]
      omega
    have hdvd : ∀ j, 1 ≤ j → 2 ^ (T - j) ∣ m := fun j hj => by
      rw [hm1]
      exact Nat.pow_dvd_pow 2 (by omega)
    rw [hsize, show T + 1 - digitBits = T - 29 by unfold digitBits; omega]
    have h29 := hdvd 29 (by omega)
    have h30 := hdvd digitBits (by norm_num)
    tauto
  · have hsize : m.size = T - 1 := by
      refine le_antisymm (Nat.size_le.mpr (by omega)) ?_
      have := Nat.lt_size.mpr (show 2 ^ (T - 1 - 1) ≤ m by omega)
      omega
    have h1 : digitBits ∣ T - 1 ↔ T % digitBits = 1 := by
      unfold digitBits
      omega
    have h0 : digitBits ∣ T ↔ T % digitBits = 0 := Nat.dvd_iff_mod_eq_zero
    rw [hsize, show T - 1 + 1 = T by omega, h1, h0]
    have hne : m ≠ 2 ^ (T - 1 - 1) := by omega
    tauto

/-- The digits of `-m`. -/
theorem fromBytesDigits_neg {X m T : ℕ} (hbelow : Below (2 ^ 8) (significant le buf) 0 buf.length)
    (hX : seg (2 ^ 8) (significant le buf) 0 buf.length = X) (hm : 1 < m) (hsum : X + m = 2 ^ (8 * buf.length))
    (hT : T = (m - 1).size + 1) (hfit : (T + 7) / 8 ≤ buf.length) :
    (¬LosesDigit m → Ends (fromBytesDigits le buf true ((T + 7) / 8) T) fun z => z.Canonical ∧ z.toInt = -(m : ℤ)) ∧
    (LosesDigit m → fromBytesDigits le buf true ((T + 7) / 8) T = none) := by
  have hhi : m ≤ 2 ^ (T - 1) := by
    have := Nat.lt_size_self (m - 1)
    rw [hT, Nat.add_sub_cancel]
    omega
  have hlo : 2 ^ (T - 2) < m := by
    have hpos := Nat.size_pos.mpr (show 0 < m - 1 by omega)
    have := Nat.lt_size.mp (show T - 2 < (m - 1).size by omega)
    omega
  have hT2 : 2 ≤ T := by
    have := Nat.size_pos.mpr (show 0 < m - 1 by omega)
    omega
  have hpow : 2 ^ T = 2 ^ (T - 1) * 2 := by
    rw [← pow_succ, show T - 1 + 1 = T by omega]
  have hmod : X % 2 ^ T = 2 ^ T - m := by
    obtain ⟨c, hc⟩ : 2 ^ T ∣ 2 ^ (8 * buf.length) := Nat.pow_dvd_pow 2 (by omega)
    obtain ⟨n, rfl⟩ : ∃ n, c = n + 1 := ⟨c - 1, by
      have := Nat.two_pow_pos (8 * buf.length)
      rcases Nat.eq_zero_or_pos c with rfl | hpos <;> omega⟩
    rw [show X = 2 ^ T - m + 2 ^ T * n by rw [Nat.mul_add] at hc; omega, Nat.add_mul_mod_self_left,
      Nat.mod_eq_of_lt (by omega)]
  obtain ⟨k, hk⟩ : ∃ k, (T + (digitBits - 1)) / digitBits = k + 1 :=
    ⟨(T + (digitBits - 1)) / digitBits - 1, by unfold digitBits; omega⟩
  obtain ⟨⟨nb, z⟩, hfill, hnb, hlen, hval, hz⟩ := fillDigits_ends hbelow hX (rfl : (T + 7) / 8 = _) hfit (by omega)
  dsimp only at hnb hlen hval hz
  obtain ⟨r, hneg, hrlen, hr, hstale, hrval⟩ :=
    fromBytesNegate_ends (by omega) (by omega) hlen hz (hval.trans hmod)
  unfold fromBytesDigits
  rw [hfill, some_bind]
  dsimp only
  rw [if_pos rfl, if_pos rfl, hnb, hneg, some_bind, losesDigit_iff hm hT]
  rw [hk] at hrlen hr hstale hrval ⊢
  have htop := last_ne_zero_iff hr
  rw [← two_pow_digitBits] at htop
  constructor
  · intro hok
    have hval := hrval fun h => hok (Or.inr h)
    have hne : cell r (k + 1 - 1) ≠ 0 := by
      rw [Nat.add_sub_cancel, htop, hval]
      by_cases h1 : T % digitBits = 1
      · have hm1 : m = 2 ^ (T - 1) := by_contra fun h => hok (Or.inl ⟨h1, h⟩)
        rw [show digitBits * k = T - 1 by unfold digitBits at *; omega]
        exact hm1.ge
      · exact (lt_of_le_of_lt (Nat.pow_le_pow_right (by norm_num) (by unfold digitBits at *; omega)) hlo).le
    have hcan := digits_canonical (z := r) true (by omega) hr hne
    rw [assert_of hne, some_bind]
    exact Ends.pure ⟨hcan.1, hcan.2.trans (by rw [if_pos rfl, hval])⟩
  · intro hbad
    have hzero : cell r (k + 1 - 1) = 0 := by
      by_cases hs : StaleMask T m
      · exact hstale hs
      · obtain ⟨h1, hm1⟩ := hbad.resolve_right hs
        by_contra hne
        rw [Nat.add_sub_cancel] at hne
        have := htop.mp hne
        rw [hrval hs, show digitBits * k = T - 1 by unfold digitBits at *; omega] at this
        omega
    rw [assert, if_neg (not_not.mpr hzero)]
    rfl

/-- The byte strings that `DeeInt_FromBytes` gets wrong: it counts the bits of a negative number with the sign bit,
and the last digit of the magnitude is lost. -/
def DecodeLosesDigit (v : ℤ) (length : ℕ) : Prop :=
  v < 0 ∧ length ∉ [0, 1, 2, 4, 8, 16] ∧ LosesDigit v.natAbs

theorem castSigned_of_lt {w x : ℕ} (h : x < 2 ^ (w - 1)) : castSigned w x = x := if_pos h

theorem castSigned_of_ge {w x m : ℕ} (h : 2 ^ (w - 1) ≤ x) (hm : x + m = 2 ^ w) : castSigned w x = -(m : ℤ) := by
  have hcast : (x : ℤ) + m = 2 ^ w := by exact_mod_cast hm
  rw [castSigned, if_neg (by omega), ← hcast]
  ring

theorem fromBytesGeneral_ends {asSigned : Bool} (hL : 0 < buf.length) (hbelow : Below (2 ^ 8) buf 0 buf.length) :
    (¬(asSigned = true ∧ bytesToInt le asSigned buf < 0 ∧ LosesDigit (bytesToInt le asSigned buf).natAbs) →
      Ends (fromBytesGeneral le buf asSigned) fun z => z.Canonical ∧ z.toInt = bytesToInt le asSigned buf) ∧
    (asSigned = true ∧ bytesToInt le asSigned buf < 0 ∧ LosesDigit (bytesToInt le asSigned buf).natAbs →
      fromBytesGeneral le buf asSigned = none) := by
  have hsig : Below (2 ^ 8) (significant le buf) 0 buf.length := significant_below hbelow
  have hXlt := seg_lt hsig
  unfold bytesToInt fromBytesGeneral
  dsimp only
  generalize hX : seg (2 ^ 8) (significant le buf) 0 buf.length = X at hXlt
  rw [← pow_mul] at hXlt
  cases asSigned with
  | false =>
    refine ⟨fun _ => ?_, fun h => by simp at h⟩
    refine Ends.bind (scanUnsigned_ends hsig hX) ?_
    rintro _ (⟨rfl, rfl⟩ | ⟨hpos, rfl, hfit⟩)
    · exact Ends.pure deeIntNewZero_canonical
    · exact fromBytesDigits_pos hsig hX hpos hfit
  | true =>
    rw [if_pos rfl]
    obtain ⟨scan, hscan, hr⟩ := scanSigned_ends hL hsig hX
    rw [if_pos rfl, hscan, some_bind]
    rcases hr with ⟨hlt, hr⟩ | ⟨hge, hr⟩
    · rw [castSigned_of_lt hlt]
      refine ⟨fun _ => ?_, fun h => by omega⟩
      rcases hr with ⟨rfl, rfl⟩ | ⟨hpos, rfl, hfit⟩
      · exact Ends.pure deeIntNewZero_canonical
      · exact fromBytesDigits_pos hsig hX hpos hfit
    · obtain ⟨m, hm⟩ : ∃ m, X + m = 2 ^ (8 * buf.length) := ⟨2 ^ (8 * buf.length) - X, by omega⟩
      have hneg : -(m : ℤ) < 0 := by omega
      have habs : (-(m : ℤ)).natAbs = m := by omega
      rw [castSigned_of_ge hge hm, habs, and_iff_right rfl, and_iff_right hneg]
      rcases hr with ⟨hmax, rfl⟩ | ⟨T, hT, hlt, rfl, hfit⟩
      · obtain rfl : m = 1 := by omega
        have hgood : ¬LosesDigit 1 := by
          unfold LosesDigit
          decide
        exact ⟨fun _ => Ends.pure (deeInt8bit_canonical (by norm_num) (by norm_num)), fun h => absurd h hgood⟩
      · rw [show 2 ^ (8 * buf.length) - X = m by omega] at hT
        exact fromBytesDigits_neg hsig hX (by omega) hm hT hfit

theorem castSigned_bounds {w x : ℕ} (hw : 0 < w) (hx : x < 2 ^ w) :
    -2 ^ (w - 1) ≤ castSigned w x ∧ castSigned w x < 2 ^ (w - 1) := by
  have hcast : ((2 ^ (w - 1) : ℕ) : ℤ) = 2 ^ (w - 1) := by push_cast; rfl
  have hpow : 2 ^ w = 2 ^ (w - 1) * 2 := by rw [← pow_succ, Nat.sub_add_cancel hw]
  rw [← hcast]
  by_cases h : x < 2 ^ (w - 1)
  · rw [castSigned_of_lt h]
    omega
  · rw [castSigned_of_ge (m := 2 ^ w - x) (by omega) (by omega)]
    omega

theorem bytesToInt_word {asSigned : Bool} {n : ℕ} (h : buf.length = n) (hbelow : Below (2 ^ 8) buf 0 buf.length) :
    bytesToInt le asSigned buf = if asSigned then castSigned (8 * n) (getWord le buf n) else getWord le buf n := by
  subst h
  rw [getWord_eq rfl hbelow]
  rfl

theorem getWord_lt (le : Bool) {n : ℕ} (h : buf.length = n) (hbelow : Below (2 ^ 8) buf 0 buf.length) :
    getWord le buf n < 2 ^ (8 * n) := by
  subst h
  rw [getWord_eq rfl hbelow, pow_mul]
  exact seg_lt (significant_below hbelow)

/-- A single byte has no order. -/
theorem getWord_one (h : buf.length = 1) (hbelow : Below (2 ^ 8) buf 0 buf.length) :
    getWord true buf 1 = getWord le buf 1 := by
  rw [h] at hbelow
  obtain ⟨b, rfl⟩ := List.length_eq_one_iff.mp h
  rw [getWord_eq h hbelow, getWord_eq h hbelow]
  cases le <;> rfl

/-- What `DeeInt_FromBytes` makes of a byte string. -/
theorem deeIntFromBytes_ends (le asSigned : Bool) (hbelow : Below (2 ^ 8) buf 0 buf.length) :
    (¬(asSigned = true ∧ DecodeLosesDigit (bytesToInt le asSigned buf) buf.length) →
      Ends (deeIntFromBytes buf le asSigned) fun z => z.Canonical ∧ z.toInt = bytesToInt le asSigned buf) ∧
    (asSigned = true ∧ DecodeLosesDigit (bytesToInt le asSigned buf) buf.length →
      deeIntFromBytes buf le asSigned = none) := by
  by_cases hgeneral : buf.length ∈ [0, 1, 2, 4, 8, 16]
  · refine ⟨fun _ => ?_, fun h => absurd hgeneral h.2.2.1⟩
    simp only [List.mem_cons, List.not_mem_nil, or_false] at hgeneral
    rcases hgeneral with h | h | h | h | h | h
    · have hv : bytesToInt le asSigned buf = 0 := by
        unfold bytesToInt
        rw [h, seg_zero]
        cases asSigned <;> rfl
      unfold deeIntFromBytes
      rw [h, hv]
      exact Ends.pure deeIntNewZero_canonical
    · have hX := getWord_lt le h hbelow
      unfold deeIntFromBytes
      rw [bytesToInt_word h hbelow, h]
      dsimp only
      rw [getWord_one h hbelow]
      have hbounds := castSigned_bounds (by norm_num) hX
      cases asSigned with
      | true => exact Ends.pure (deeInt8bit_canonical (by norm_num at *; omega) (by norm_num at *; omega))
      | false => exact Ends.pure (deeInt8bit_canonical (by norm_num; omega) (by norm_num at *; omega))
    · have hX := getWord_lt le h hbelow
      unfold deeIntFromBytes
      rw [bytesToInt_word h hbelow, h]
      have hbounds := castSigned_bounds (by norm_num) hX
      cases asSigned with
      | true => exact deeIntNewInt16_ends hbounds.1 hbounds.2
      | false => exact deeIntNewUInt16_ends hX
    · unfold deeIntFromBytes
      rw [bytesToInt_word h hbelow, h]
      cases asSigned with
      | true => exact newSigned_ends _
      | false => exact newUnsigned_ends _
    · unfold deeIntFromBytes
      rw [bytesToInt_word h hbelow, h]
      cases asSigned with
      | true => exact newSigned_ends _
      | false => exact newUnsigned_ends _
    · unfold deeIntFromBytes
      rw [bytesToInt_word h hbelow, h]
      cases asSigned with
      | true => exact deeIntNewInt128_ends _
      | false => exact deeIntNewUInt128_ends _
  · have hrun : deeIntFromBytes buf le asSigned = fromBytesGeneral le buf asSigned := by
      simp only [List.mem_cons, List.not_mem_nil, or_false, not_or] at hgeneral
      unfold deeIntFromBytes
      split <;> simp_all
    have hL : 0 < buf.length := Nat.pos_of_ne_zero fun h => hgeneral (by simp [h])
    rw [hrun]
    unfold DecodeLosesDigit
    rw [and_iff_right hgeneral]
    exact fromBytesGeneral_ends hL hbelow

end Decoder

/-! ### Round trips -/

section RoundTrip

variable {le : Bool}

@[simp] theorem length_twosComplement (le : Bool) (L : ℕ) (v : ℤ) : (twosComplement le L v).length = L := by
  simp [twosComplement]

theorem cell_twosComplement {L k : ℕ} {v : ℤ} (hk : k < L) :
    cell (significant le (twosComplement le L v)) k = (v / 2 ^ (8 * k) % 256).toNat := by
  simp [twosComplement, cell, hk]

theorem twosComplement_below {L : ℕ} {v : ℤ} : Below (2 ^ 8) (twosComplement le L v) 0 L := fun i hi => by
  have h : significant le (significant le (twosComplement le L v)) = twosComplement le L v := significant_significant _ _
  rw [← h, Nat.zero_add, cell_significant (by simpa using hi), length_significant, length_twosComplement,
    cell_twosComplement (byteIndex_lt le hi)]
  omega

theorem emod_mul_byte {v P : ℤ} (hP : 0 < P) : v % (P * 2 ^ 8) = v % P + P * (v / P % 256) := by
  have h1 := Int.emod_add_mul_ediv v P
  have h2 := Int.emod_add_mul_ediv (v / P) 256
  have hr := Int.emod_lt_of_pos v hP
  have hr0 := Int.emod_nonneg v hP.ne'
  have hs : P * (v / P % 256) ≤ P * 255 := mul_le_mul_of_nonneg_left (by omega) hP.le
  have hs0 : 0 ≤ P * (v / P % 256) := mul_nonneg hP.le (by omega)
  have hv : v = v % P + P * (v / P % 256) + P * 2 ^ 8 * (v / P / 256) := by
    linear_combination -h1 - P * h2
  conv_lhs => rw [hv, Int.add_mul_emod_self_left]
  exact Int.emod_eq_of_lt (by omega) (by omega)

theorem seg_twosComplement {L n : ℕ} {v : ℤ} (hn : n ≤ L) :
    (seg (2 ^ 8) (significant le (twosComplement le L v)) 0 n : ℤ) = v % 2 ^ (8 * n) := by
  induction n with
  | zero => simp
  | succ n ih =>
    have hbyte : ((v / 2 ^ (8 * n) % 256).toNat : ℤ) = v / 2 ^ (8 * n) % 256 := Int.toNat_of_nonneg (by omega)
    rw [seg_succ, Nat.zero_add, cell_twosComplement hn, Nat.cast_add, ih (by omega), Nat.cast_mul, hbyte, ← pow_mul,
      Nat.mul_succ, pow_add, emod_mul_byte (by positivity)]
    push_cast
    ring

/-- The bytes of an integer in range stand for it. -/
theorem bytesToInt_twosComplement {L : ℕ} {v : ℤ} {asSigned : Bool} (h : InByteRange v L asSigned) :
    bytesToInt le asSigned (twosComplement le L v) = v := by
  have hseg : (seg (2 ^ 8) (significant le (twosComplement le L v)) 0 L : ℤ) = v % 2 ^ (8 * L) :=
    seg_twosComplement le_rfl
  unfold bytesToInt
  dsimp only
  rw [length_twosComplement]
  generalize seg (2 ^ 8) (significant le (twosComplement le L v)) 0 L = X at hseg ⊢
  unfold InByteRange at h
  cases asSigned with
  | false =>
    rw [if_neg (by simp)] at h ⊢
    rw [hseg, Int.emod_eq_of_lt h.1 h.2]
  | true =>
    rw [if_pos rfl] at h ⊢
    rcases Nat.eq_zero_or_pos L with rfl | hL
    · rw [if_pos rfl] at h
      subst h
      obtain rfl : X = 0 := by exact_mod_cast hseg
      rfl
    · rw [if_neg hL.ne'] at h
      have hpow : (2 : ℤ) ^ (8 * L) = 2 ^ (8 * L - 1) * 2 := by
        rw [← pow_succ, Nat.sub_add_cancel (by omega)]
      have hcast : ((2 ^ (8 * L - 1) : ℕ) : ℤ) = 2 ^ (8 * L - 1) := by push_cast; rfl
      rcases lt_or_ge v 0 with hneg | hpos
      · have hX : (X : ℤ) = v + 2 ^ (8 * L) := by
          rw [hseg, ← Int.add_emod_right, Int.emod_eq_of_lt (by omega) (by omega)]
        have hm : X + v.natAbs = 2 ^ (8 * L) := by
          zify
          rw [hX, abs_of_neg hneg]
          ring
        rw [castSigned_of_ge (by omega) hm]
        omega
      · rw [Int.emod_eq_of_lt hpos (by omega)] at hseg
        rw [castSigned_of_lt (by omega), hseg]

/-- The integer of a byte string is in range, and its bytes are the string. -/
theorem twosComplement_bytesToInt {buf : List ℕ} {asSigned : Bool} (hbelow : Below (2 ^ 8) buf 0 buf.length) :
    InByteRange (bytesToInt le asSigned buf) buf.length asSigned ∧
      twosComplement le buf.length (bytesToInt le asSigned buf) = buf := by
  have hsig : Below (2 ^ 8) (significant le buf) 0 buf.length := significant_below hbelow
  have hlt := seg_lt hsig
  unfold bytesToInt
  dsimp only
  generalize hX : seg (2 ^ 8) (significant le buf) 0 buf.length = X at hlt
  rw [← pow_mul] at hlt
  have hround : ∀ q v : ℤ, (X : ℤ) = v + 2 ^ (8 * buf.length) * q → twosComplement le buf.length v = buf :=
    fun q v h => (eq_twosComplement (q := q) hsig (by rw [hX, h])).symm
  unfold InByteRange
  cases asSigned with
  | false =>
    rw [if_neg (by simp), if_neg (by simp)]
    exact ⟨⟨by omega, by exact_mod_cast hlt⟩, hround 0 _ (by ring)⟩
  | true =>
    rw [if_pos rfl, if_pos rfl]
    rcases Nat.eq_zero_or_pos buf.length with h0 | hL
    · obtain rfl : X = 0 := by simpa [h0] using hlt
      have hz : castSigned (8 * buf.length) 0 = 0 := by
        rw [h0]
        rfl
      rw [if_pos h0, hz]
      exact ⟨rfl, hround 0 0 (by simp)⟩
    · have hbounds := castSigned_bounds (by omega) hlt
      rw [if_neg hL.ne']
      refine ⟨hbounds, ?_⟩
      by_cases h : X < 2 ^ (8 * buf.length - 1)
      · rw [castSigned_of_lt h]
        exact hround 0 _ (by ring)
      · have hm : X + (2 ^ (8 * buf.length) - X) = 2 ^ (8 * buf.length) := by omega
        have hcast : (X : ℤ) + ((2 ^ (8 * buf.length) - X : ℕ) : ℤ) = 2 ^ (8 * buf.length) := by exact_mod_cast hm
        rw [castSigned_of_ge (by omega) hm]
        exact hround 1 _ (by linear_combination hcast)

end RoundTrip

/-- `DeeInt_AsBytes` accepts an integer exactly if it is in range, writes its two's complement, and
`DeeInt_FromBytes` reads it back. -/
def EncodesRight (v : DeeInt) (dst : List ℕ) (littleEndian asSigned : Bool) : Prop :=
  if InByteRange v.toInt dst.length asSigned then
    deeIntAsBytes v dst littleEndian asSigned = some (.ok (twosComplement littleEndian dst.length v.toInt)) ∧
    ∃ z, deeIntFromBytes (twosComplement littleEndian dst.length v.toInt) littleEndian asSigned = some z ∧
      z.Canonical ∧ z.toInt = v.toInt
  else ∃ e, deeIntAsBytes v dst littleEndian asSigned = some (.error e)

/-- `DeeInt_FromBytes` makes a canonical integer of a byte string, and `DeeInt_AsBytes` gives the string back. -/
def DecodesRight (buf : List ℕ) (littleEndian asSigned : Bool) : Prop :=
  ∃ z, deeIntFromBytes buf littleEndian asSigned = some z ∧ z.Canonical ∧
    ∀ dst : List ℕ, dst.length = buf.length → deeIntAsBytes z dst littleEndian asSigned = some (.ok buf)

/-- The least integer of a signed range, for which the encoder finds no room. -/
def IsLeastSigned (v : ℤ) (length : ℕ) : Prop := 0 < length ∧ v = -2 ^ (8 * length - 1)

theorem encodesRight_iff {v : DeeInt} {dst : List ℕ} {le asSigned : Bool} (hv : v.Canonical) :
    EncodesRight v dst le asSigned ↔ ¬(asSigned = true ∧ (IsLeastSigned v.toInt dst.length ∨
      InByteRange v.toInt dst.length asSigned ∧ DecodeLosesDigit v.toInt dst.length)) := by
  obtain ⟨r, hr, hout⟩ : Ends (deeIntAsBytes v dst le asSigned) _ := deeIntAsBytes_ends hv
  rw [asBytesAccepts_iff] at hout
  unfold EncodesRight IsLeastSigned
  by_cases hrange : InByteRange v.toInt dst.length asSigned
  · rw [if_pos hrange, and_iff_right hrange]
    have hcode : Below (2 ^ 8) (twosComplement le dst.length v.toInt) 0 (twosComplement le dst.length v.toInt).length := by
      rw [length_twosComplement]
      exact twosComplement_below
    have hdec := deeIntFromBytes_ends le asSigned hcode
    rw [bytesToInt_twosComplement hrange, length_twosComplement] at hdec
    constructor
    · rintro ⟨henc, z, hz, -⟩ ⟨hs, hleast | hloses⟩
      · rcases hout with ⟨⟨-, hne⟩, -⟩ | ⟨-, s, p, rfl⟩
        · exact hne ⟨hs, hleast⟩
        · rw [hr] at henc
          simp at henc
      · rw [hdec.2 ⟨hs, hloses⟩] at hz
        simp at hz
    · intro hok
      rcases hout with ⟨-, rfl⟩ | ⟨hrefused, -⟩
      · exact ⟨hr, hdec.1 fun h => hok ⟨h.1, Or.inr h.2⟩⟩
      · exact absurd ⟨hrange, fun h => hok ⟨h.1, Or.inl h.2⟩⟩ hrefused
  · rw [if_neg hrange]
    refine iff_of_true ?_ ?_
    · rcases hout with ⟨⟨h, -⟩, -⟩ | ⟨-, s, p, rfl⟩
      · exact absurd h hrange
      · exact ⟨_, hr⟩
    · rintro ⟨rfl, ⟨hL, hleast⟩ | ⟨h, -⟩⟩
      · refine hrange ?_
        have hpos : (0 : ℤ) < 2 ^ (8 * dst.length - 1) := by positivity
        unfold InByteRange
        rw [if_pos rfl, if_neg hL.ne', hleast]
        omega
      · exact hrange h

theorem decodesRight_iff {buf : List ℕ} {le asSigned : Bool} (hbuf : Below (2 ^ 8) buf 0 buf.length) :
    DecodesRight buf le asSigned ↔ ¬(asSigned = true ∧ (IsLeastSigned (bytesToInt le asSigned buf) buf.length ∨
      DecodeLosesDigit (bytesToInt le asSigned buf) buf.length)) := by
  have hdec : (_ → Ends (deeIntFromBytes buf le asSigned) _) ∧ _ := deeIntFromBytes_ends le asSigned hbuf
  obtain ⟨hrange, hround⟩ : InByteRange (bytesToInt le asSigned buf) buf.length asSigned ∧ _ :=
    twosComplement_bytesToInt hbuf
  have hrun : ∀ z : DeeInt, z.Canonical → z.toInt = bytesToInt le asSigned buf → ∀ dst : List ℕ, dst.length = buf.length →
      ∃ r, deeIntAsBytes z dst le asSigned = some r ∧
        (r = .ok buf ↔ ¬(asSigned = true ∧ IsLeastSigned (bytesToInt le asSigned buf) buf.length)) := by
    intro z hz hval dst hlen
    obtain ⟨r, hr, hout⟩ : Ends (deeIntAsBytes z dst le asSigned) _ := deeIntAsBytes_ends hz
    rw [asBytesAccepts_iff, hval, hlen, hround] at hout
    refine ⟨r, hr, ?_⟩
    rcases hout with ⟨⟨-, hne⟩, rfl⟩ | ⟨hrefused, s, p, rfl⟩
    · exact iff_of_true rfl hne
    · refine iff_of_false (by simp) fun h => hrefused ⟨hrange, h⟩
  constructor
  · rintro ⟨z, hz, hcan, hback⟩ ⟨hs, hleast | hloses⟩
    · by_cases hloses : DecodeLosesDigit (bytesToInt le asSigned buf) buf.length
      · rw [hdec.2 ⟨hs, hloses⟩] at hz
        simp at hz
      · have hval := (hdec.1 fun h => hloses h.2).of_eq hz
        obtain ⟨r, hr, hiff⟩ := hrun z hcan hval.2 buf rfl
        rw [hback buf rfl, Option.some.injEq] at hr
        exact hiff.mp hr.symm ⟨hs, hleast⟩
    · rw [hdec.2 ⟨hs, hloses⟩] at hz
      simp at hz
  · intro hok
    obtain ⟨z, hz, hcan, hval⟩ := hdec.1 fun h => hok ⟨h.1, Or.inr h.2⟩
    refine ⟨z, hz, hcan, fun dst hlen => ?_⟩
    obtain ⟨r, hr, hiff⟩ := hrun z hcan hval dst hlen
    rw [hr, hiff.mpr fun h => hok ⟨h.1, Or.inl h.2⟩]

/-- Exactly when the byte encoding of integers is a bijection: not at the least integer of a signed range, which
the encoder and with it `int.tobytes` refuse, and not where the decoder loses a digit. -/
theorem int_bytes_iff (v : DeeInt) (dst buf : List ℕ) (littleEndian asSigned : Bool) (byteorder : Option String) (uninit : ℕ)
    (hv : v.Canonical) (hbuf : Below (2 ^ 8) buf 0 buf.length)
    (horder : byteorder = none ∨ byteorder = some "little" ∨ byteorder = some "big") :
    (EncodesRight v dst littleEndian asSigned ↔ ¬(asSigned = true ∧ (IsLeastSigned v.toInt dst.length ∨
      InByteRange v.toInt dst.length asSigned ∧ DecodeLosesDigit v.toInt dst.length))) ∧
    (DecodesRight buf littleEndian asSigned ↔
      ¬(asSigned = true ∧ (IsLeastSigned (bytesToInt littleEndian asSigned buf) buf.length ∨
        DecodeLosesDigit (bytesToInt littleEndian asSigned buf) buf.length))) ∧
    ((v.toInt < 0 → asSigned = true) →
      ((∃ bytes, intTobytes v none byteorder asSigned uninit = some (.ok bytes)) ↔
        ¬(asSigned = true ∧ ∃ k, v.toInt = -2 ^ (8 * k + 7)))) := by
  refine ⟨encodesRight_iff hv, decodesRight_iff hbuf, fun hdom => ?_⟩
  obtain ⟨r, hr, hiff⟩ := intTobytes_ends uninit hv hdom horder
  rw [hr, ← hiff]
  simp

theorem int_bytes_iff_minus_129 :
    EncodesRight ⟨-1, [129]⟩ [0, 0] false true ∧ DecodesRight [0xff, 0x7f] false true ∧
      ∃ bytes, intTobytes ⟨-1, [129]⟩ none none true 0 = some (.ok bytes) := by
  obtain ⟨henc, hdec, hto⟩ := int_bytes_iff ⟨-1, [129]⟩ [0, 0] [0xff, 0x7f] false true none 0 (by decide)
    (by unfold Below; decide) (Or.inl rfl)
  have hval : DeeInt.toInt ⟨-1, [129]⟩ = -129 := by decide
  have hbuf : bytesToInt false true [0xff, 0x7f] = -129 := by decide
  rw [hval] at henc hto
  rw [hbuf] at hdec
  refine ⟨henc.mpr ?_, hdec.mpr ?_, (hto fun _ => rfl).mpr ?_⟩
  · rintro ⟨-, h | h⟩
    · exact absurd h.2 (by decide)
    · exact h.2.2.1 (by decide)
  · rintro ⟨-, h | h⟩
    · exact absurd h.2 (by decide)
    · exact h.2.1 (by decide)
  · rintro ⟨-, k, hk⟩
    have : (2 : ℤ) ^ (8 * k + 7) = 2 * 2 ^ (8 * k + 6) := by ring
    omega

/-- `-128` does not fit one signed byte; `-(2 ^ 30 - 1)` from five bytes and `-(2 ^ 58 + 1)` from nine break the
assertion on the last digit. -/
theorem int_bytes_fails :
    ¬EncodesRight ⟨-1, [128]⟩ [0] true true ∧ (∀ bytes, intTobytes ⟨-1, [128]⟩ none none true 0 ≠ some (.ok bytes)) ∧
      ¬DecodesRight [0x01, 0x00, 0x00, 0xc0, 0xff] true true ∧
      ¬DecodesRight [0xff, 0xff, 0xff, 0xff, 0xff, 0xff, 0xff, 0xfb, 0xff] true true := by
  have hrefused : deeIntAsBytes ⟨-1, [128]⟩ [0] true true = some (.error (.integerOverflow ⟨-1, [128]⟩ 8 true true)) := by
    decide +kernel
  have htobytes : intTobytes ⟨-1, [128]⟩ none none true 0 = some (.error (.integerOverflow ⟨-1, [128]⟩ 8 true true)) := by
    decide +kernel
  have hfive : deeIntFromBytes [0x01, 0x00, 0x00, 0xc0, 0xff] true true = none := by decide +kernel
  have hnine : deeIntFromBytes [0xff, 0xff, 0xff, 0xff, 0xff, 0xff, 0xff, 0xfb, 0xff] true true = none := by
    decide +kernel
  refine ⟨?_, ?_, ?_, ?_⟩
  · unfold EncodesRight
    rw [if_pos (by decide), hrefused]
    simp
  · rw [htobytes]
    simp
  · rintro ⟨z, hz, -⟩
    rw [hfive] at hz
    simp at hz
  · rintro ⟨z, hz, -⟩
    rw [hnine] at hz
    simp at hz

end Deemon.Int
