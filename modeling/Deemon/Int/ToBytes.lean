import Deemon.Int.Shift
import Deemon.Lib.Packing
import Mathlib.Data.Nat.Bitwise

/-!
# Integers to bytes

`DeeInt_AsBytes` packs the 30-bit digits into bytes through an accumulator, pads with the sign byte, and for a
negative integer then decrements and inverts the bits it has written. `int_reqbits` counts the bits an
integer takes, and `int_tobytes` picks its length from it.

The code writes in either byte order by moving `writer` up or down; here byte `k` of a buffer is its `k`-th
least significant one, and `byteIndex` says where it lies.
-/

namespace Deemon.Int

open Deemon.Run Deemon.Radix DeeInt

/-! ### Byte order -/

/-- Where the `k`-th least significant of `length` bytes lies. -/
def byteIndex (littleEndian : Bool) (length k : ℕ) : ℕ := if littleEndian then k else length - 1 - k

/-- A read of the `k`-th least significant byte. -/
def rdByte (littleEndian : Bool) (buf : List ℕ) (k : ℕ) : Option ℕ :=
  if k < buf.length then rd buf (byteIndex littleEndian buf.length k) else none

/-- A write of the `k`-th least significant byte. -/
def wrByte (littleEndian : Bool) (buf : List ℕ) (k v : ℕ) : Option (List ℕ) :=
  if k < buf.length then wr buf (byteIndex littleEndian buf.length k) v else none

/-- The bytes of a buffer, least significant first. -/
def significant (littleEndian : Bool) (buf : List ℕ) : List ℕ := if littleEndian then buf else buf.reverse

section Order

variable {le : Bool} {buf : List ℕ} {k v : ℕ}

theorem byteIndex_lt (le : Bool) {n : ℕ} (h : k < n) : byteIndex le n k < n := by
  unfold byteIndex
  split_ifs <;> omega

@[simp] theorem length_significant (le : Bool) (buf : List ℕ) : (significant le buf).length = buf.length := by
  unfold significant
  split_ifs <;> simp

@[simp] theorem significant_significant (le : Bool) (buf : List ℕ) : significant le (significant le buf) = buf := by
  unfold significant
  split_ifs <;> simp

theorem cell_significant (h : k < buf.length) :
    cell (significant le buf) k = cell buf (byteIndex le buf.length k) := by
  unfold significant byteIndex
  split_ifs
  · rfl
  · simp [cell, List.getElem?_reverse h]

theorem significant_set (h : k < buf.length) :
    significant le (buf.set (byteIndex le buf.length k) v) = (significant le buf).set k v := by
  unfold significant byteIndex
  split_ifs
  · rfl
  · refine List.ext_getElem (by simp) fun i hi _ => ?_
    simp only [List.length_reverse, List.length_set] at hi
    simp only [List.getElem_reverse, List.getElem_set, List.length_set]
    by_cases hik : k = i
    · rw [if_pos (by omega), if_pos hik]
    · rw [if_neg (by omega), if_neg hik]

theorem rdByte_of_lt (h : k < buf.length) : rdByte le buf k = some (cell (significant le buf) k) := by
  rw [rdByte, if_pos h, rd_of_lt (byteIndex_lt le h), cell_significant h]

theorem wrByte_ends (h : k < buf.length) :
    Ends (wrByte le buf k v) fun buf' => significant le buf' = (significant le buf).set k v := by
  rw [wrByte, if_pos h, wr_of_lt (byteIndex_lt le h)]
  exact Ends.pure (significant_set h)

/-- `memset` of the `n` most significant bytes. -/
theorem fillBytes_ends (le : Bool) (v : ℕ) {n : ℕ} (h : n ≤ buf.length) :
    Ends (fillCells buf (if le then buf.length - n else 0) v n) fun buf' =>
      SameOut (significant le buf) (significant le buf') (buf.length - n) n ∧
      ∀ i, buf.length - n ≤ i → i < buf.length → cell (significant le buf') i = v := by
  refine (fillCells_ends (by split_ifs <;> omega)).mono fun buf' ⟨hout, hin⟩ => ?_
  have hlen := hout.length
  refine ⟨⟨by simpa using hlen, fun j hj => ?_⟩, fun i hlo hhi => ?_⟩
  · by_cases hjlen : j < buf.length
    · rw [cell_significant (by omega), cell_significant hjlen, hlen]
      refine hout.out _ ?_
      unfold byteIndex
      split_ifs <;> omega
    · rw [cell_of_le (by rw [length_significant]; omega), cell_of_le (by rw [length_significant]; omega)]
  · rw [cell_significant (by omega), hlen]
    cases le with
    | true =>
      have := hin (i - (buf.length - n)) (by omega)
      rw [if_pos rfl, Nat.add_sub_cancel' hlo] at this
      exact this
    | false =>
      have := hin (buf.length - 1 - i) (by omega)
      rw [if_neg (by simp), Nat.zero_add] at this
      exact this

end Order

/-! ### The encoder -/

/-- `writer`, `temp`, `num_bits` and `remaining` of `DeeInt_AsBytes`; `writer` is at byte `length - remaining`. -/
structure ByteWriter where
  temp : ℕ
  numBits : ℕ
  remaining : ℕ
  dst : List ℕ

/-- `temp |= (twodigits)d << num_bits; num_bits += bits`. -/
def ByteWriter.put (w : ByteWriter) (d bits : ℕ) : Option ByteWriter := do
  some { w with temp := ← fits 64 (w.temp ||| d <<< w.numBits), numBits := w.numBits + bits }

/-- `while (num_bits >= 8)`: writes the full bytes. `none` inside is `goto err_overflow`. -/
def flushBytes (littleEndian : Bool) (w : ByteWriter) : Option (Option ByteWriter) :=
  loop (fun w =>
    if 8 ≤ w.numBits then
      if w.remaining = 0 then some (.done none)
      else do
        let numBits := w.numBits - 8
        let dst ← wrByte littleEndian w.dst (w.dst.length - w.remaining) (w.temp &&& 0xff)
        some (.next ⟨w.temp >>> 8 &&& (1 <<< numBits - 1), numBits, w.remaining - 1, dst⟩)
    else some (.done (some w))) (w.numBits + 1) w

/-- `while (last_bits && !(last_digit & (1 << (last_bits - 1)))) --last_bits`. -/
def lastDigitBits (lastDigit : ℕ) : Option ℕ :=
  loop (fun lastBits => some (if lastBits ≠ 0 ∧ lastDigit &&& 1 <<< (lastBits - 1) = 0 then .next (lastBits - 1)
    else .done lastBits)) (digitBits + 1) digitBits

/-- The two digit loops of `DeeInt_AsBytes`: all full bytes of the magnitude. -/
def asBytesDigits (self : DeeInt) (dst : List ℕ) (littleEndian : Bool) : Option (Option ByteWriter) := do
  let count := self.absSize
  let w ← loop (fun (i, w) =>
    if i < count - 1 then do
      let w ← w.put (← rd self.obDigit i) digitBits
      match ← flushBytes littleEndian w with
      | none => some (.done none)
      | some w => some (.next (i + 1, w))
    else some (.done (some w))) count (0, ⟨0, 0, dst.length, dst⟩)
  match w with
  | none => some none
  | some w => do
    let lastDigit ← rd self.obDigit (count - 1)
    let lastBits ← lastDigitBits lastDigit
    flushBytes littleEndian (← w.put lastDigit lastBits)

/-- The bits that are left go into a byte of their own; a signed number needs room for a sign bit. -/
def asBytesPartial (littleEndian asSigned : Bool) (w : ByteWriter) : Option (Option ByteWriter) :=
  if w.numBits ≠ 0 then
    if w.remaining = 0 then some none
    else do
      let leadMask := 1 <<< w.numBits - 1
      let dst ← wrByte littleEndian w.dst (w.dst.length - w.remaining) (w.temp &&& leadMask)
      some (some { w with dst := dst, remaining := w.remaining - 1 })
  else if w.remaining = 0 ∧ asSigned then some none
  else some (some w)

/-- The decrement of the `totalBits` low bits. -/
def asBytesDecr (littleEndian : Bool) (dst : List ℕ) (totalBits : ℕ) : Option (List ℕ) :=
  loop (fun (k, numBits, dst) =>
    if 8 ≤ numBits then do
      let byte ← rdByte littleEndian dst k
      let dst ← wrByte littleEndian dst k ((byte + 0xff) % 0x100)
      some (if byte ≠ 0 then .done dst else .next (k + 1, numBits - 8, dst))
    else if numBits ≠ 0 then do
      let oldByte ← rdByte littleEndian dst k
      let byteMask := 1 <<< numBits - 1
      let newByte := ((oldByte &&& byteMask) + 0xff) % 0x100
      let dst ← wrByte littleEndian dst k (oldByte &&& (0xff - byteMask) ||| newByte &&& byteMask)
      some (.done dst)
    else some (.done dst)) (totalBits + 1) (0, totalBits, dst)

/-- The inversion of the bytes that hold the `totalBits` low bits. -/
def asBytesInv (littleEndian : Bool) (dst : List ℕ) (totalBits : ℕ) : Option (List ℕ) := do
  let invert (k : ℕ) (dst : List ℕ) : Option (List ℕ) := do wrByte littleEndian dst k (0xff - (← rdByte littleEndian dst k))
  let dst ← forLoop invert 0 (totalBits / 8) dst
  if totalBits % 8 ≠ 0 then invert (totalBits / 8) dst else some dst

/-- The decrement and the inversion of the bits of a negative integer. -/
def asBytesNegate (littleEndian : Bool) (dst : List ℕ) (totalBits : ℕ) : Option (List ℕ) := do
  let dst ← asBytesDecr littleEndian dst totalBits
  asBytesInv littleEndian dst totalBits

/-- `DeeInt_AsBytes`; `dst` is the buffer of `length` bytes. -/
def deeIntAsBytes (self : DeeInt) (dst : List ℕ) (littleEndian asSigned : Bool) :
    Option (Except IntError (List ℕ)) :=
  let length := dst.length
  let errOverflow := Except.error (.integerOverflow self (length * 8) asSigned true)
  if self.absSize = 0 then do
    some (.ok (← fillCells dst 0 0 length))
  else if self.obSize < 0 ∧ !asSigned then
    some (.error (.integerOverflow self (length * 8) false false))
  else do
    let leadingByte := if self.obSize < 0 then 0xff else 0
    match ← asBytesDigits self dst littleEndian with
    | none => some errOverflow
    | some full =>
      match ← asBytesPartial littleEndian asSigned full with
      | none => some errOverflow
      | some w => do
        let dst ← fillCells w.dst (if littleEndian then length - w.remaining else 0) leadingByte w.remaining
        if self.obSize < 0 then do
          let totalBits := w.numBits + (length - w.remaining) * 8
          let totalBits := if w.numBits ≠ 0 then totalBits - 8 else totalBits
          let dst ← asBytesNegate littleEndian dst totalBits
          some (.ok dst)
        else some (.ok dst)

/-- What the encoder's loops keep: the `n` bits taken in make `v`, all of them written or still in `temp`. -/
structure ByteWriter.Holds (littleEndian : Bool) (length : ℕ) (w : ByteWriter) (v n : ℕ) : Prop where
  len : w.dst.length = length
  room : w.remaining ≤ length
  packed : Packed 8 (significant littleEndian w.dst) 0 (length - w.remaining) w.temp w.numBits v n

/-- The result of `flushBytes`: less than a byte is left, or the bits do not fit. -/
def Flushed (littleEndian : Bool) (length v n : ℕ) : Option ByteWriter → Prop
  | none => 8 * length + 8 ≤ n
  | some w => w.Holds littleEndian length v n ∧ w.numBits < 8

section Encoder

variable {le : Bool} {L v n : ℕ} {w : ByteWriter}

theorem ByteWriter.Holds.put (h : w.Holds le L v n) (hw : w.numBits < 8) {d m : ℕ} (hd : d < 2 ^ m) (hm : m ≤ 30) :
    Ends (w.put d m) fun w' => w'.Holds le L (v + d * 2 ^ n) (n + m) := by
  have hpush := h.packed.push hd
  have hlt : 2 ^ (w.numBits + m) ≤ 2 ^ 64 := Nat.pow_le_pow_right (by norm_num) (by omega)
  unfold ByteWriter.put
  rw [fits_of_lt (lt_of_lt_of_le hpush.temp_lt hlt)]
  exact Ends.pure ⟨h.len, h.room, hpush⟩

theorem flushBytes_ends (h : w.Holds le L v n) : Ends (flushBytes le w) (Flushed le L v n) := by
  unfold flushBytes
  refine loop_ends (fun w => w.Holds le L v n) (fun w => w.numBits) h (Nat.lt_succ_self _) ?_
  intro w hw
  have hlen := hw.len
  have hroom := hw.room
  have hbits := hw.packed.bits
  split_ifs with h8 hzero
  · exact Ends.pure (by unfold Step.Sat Flushed; omega)
  · refine Ends.bind (wrByte_ends (by omega)) fun dst hdst => Ends.pure ⟨⟨?_, ?_, ?_⟩, ?_⟩
    · rw [← hlen, ← length_significant le, hdst, List.length_set, length_significant]
    · dsimp only
      omega
    · have hpop := hw.packed.pop h8 (by rw [length_significant]; omega)
      dsimp only
      rw [hdst, hpop.mask, Nat.and_two_pow_sub_one_eq_mod w.temp 8, hlen]
      rwa [Nat.zero_add, show L - w.remaining + 1 = L - (w.remaining - 1) by omega] at hpop
    · dsimp only
      omega
  · exact Ends.pure ⟨hw, by omega⟩

theorem and_shiftLeft_eq_zero_iff {d k : ℕ} : d &&& 1 <<< k = 0 ↔ d.testBit k = false := by
  rw [Nat.one_shiftLeft, Nat.and_two_pow]
  cases d.testBit k <;> simp

/-- The loop over the bits of the last digit finds their number. -/
theorem lastDigitBits_ends {d : ℕ} (hd : d < digitBase) : Ends (lastDigitBits d) fun bits => bits = d.size :=
  trim_ends (fun _ => and_congr_right fun _ => and_shiftLeft_eq_zero_iff) hd (Nat.lt_succ_self _)

/-- The bits of a canonical integer, counted from its last digit. -/
theorem size_mag {x : DeeInt} (hx : x.Canonical) {k : ℕ} (hk : x.absSize = k + 1) :
    x.mag.size = 30 * k + (cell x.obDigit k).size := by
  have htop := hx.top (by omega)
  rw [hk, Nat.add_sub_cancel] at htop
  have hlow := seg_lt (hx.below.mono (show k ≤ x.absSize by omega))
  have hmag : x.mag = seg digitBase x.obDigit 0 k + cell x.obDigit k * digitBase ^ k := by
    rw [mag, hk, seg_succ, Nat.zero_add]
  have hpow : digitBase ^ k = 2 ^ (30 * k) := (pow_mul 2 30 k).symm
  rw [hpow] at hlow hmag
  rw [hmag, size_add_mul hlow htop]

/-- The digit loops write the magnitude, bit for bit. -/
theorem asBytesDigits_ends {self : DeeInt} {dst : List ℕ} (hself : self.Canonical) (hsize : 0 < self.absSize) :
    Ends (asBytesDigits self dst le) (Flushed le dst.length self.mag self.mag.size) := by
  obtain ⟨k, hk⟩ : ∃ k, self.absSize = k + 1 := ⟨self.absSize - 1, by omega⟩
  have hlast := hself.cell_lt (i := k) (by omega)
  have hmag := size_mag hself hk
  unfold asBytesDigits
  dsimp only
  rw [hk, Nat.add_sub_cancel]
  refine Ends.bind (P := Flushed le dst.length (seg digitBase self.obDigit 0 k) (30 * k)) ?_ ?_
  · refine loop_ends (fun s => s.1 ≤ k ∧ s.2.Holds le dst.length (seg digitBase self.obDigit 0 s.1) (30 * s.1) ∧
      s.2.numBits < 8) (fun s => k - s.1) ?_ (by simp) ?_
    · refine ⟨Nat.zero_le _, ⟨rfl, le_rfl, ?_⟩, by simp⟩
      rw [Nat.sub_self]
      exact Packed.zero
    rintro ⟨i, w⟩ ⟨hi, hw, h8⟩
    dsimp only at hi hw h8 ⊢
    split_ifs with hik
    · rw [rd_of_lt (hself.lt_length (by omega)), some_bind]
      refine Ends.bind (hw.put h8 (hself.cell_lt (i := i) (by omega)) le_rfl) fun w' hw' => ?_
      refine Ends.bind (flushBytes_ends hw') ?_
      rintro (_ | w'') hflush
      · exact Ends.pure (by unfold Step.Sat Flushed digitBits at *; omega)
      · refine Ends.pure ⟨⟨hik, ?_, hflush.2⟩, by dsimp only; omega⟩
        dsimp only
        rw [seg_succ, Nat.zero_add, ← pow_mul]
        exact hflush.1
    · obtain rfl : i = k := by omega
      exact Ends.pure ⟨hw, h8⟩
  rintro (_ | w) hflush
  · exact Ends.pure (by unfold Flushed at *; omega)
  · dsimp only
    rw [rd_of_lt (hself.lt_length (by omega)), some_bind]
    refine Ends.bind (lastDigitBits_ends hlast) ?_
    rintro - rfl
    refine Ends.bind (hflush.1.put hflush.2 (Nat.lt_size_self _) (Nat.size_le.mpr hlast)) fun w' hw' => ?_
    have hval : self.mag = seg digitBase self.obDigit 0 k + cell self.obDigit k * 2 ^ (30 * k) := by
      rw [mag, hk, seg_succ, Nat.zero_add, pow_mul]
    rw [hmag, hval]
    exact flushBytes_ends hw'

/-- What is written when all bits of `m` are: `T` bits, the last `T % 8` in a byte of their own. -/
structure ByteWriter.Full (littleEndian : Bool) (length m T : ℕ) (w : ByteWriter) : Prop where
  len : w.dst.length = length
  room : w.remaining ≤ length
  bytes : length - w.remaining = (T + 7) / 8
  bits : w.numBits = T % 8
  value : seg (2 ^ 8) (significant littleEndian w.dst) 0 ((T + 7) / 8) = m
  below : Below (2 ^ 8) (significant littleEndian w.dst) 0 ((T + 7) / 8)

/-- The encoder takes `T` bits, and for a signed number one more. -/
def BitsFit (asSigned : Bool) (T length : ℕ) : Prop := T + asSigned.toNat ≤ 8 * length

theorem asBytesPartial_ends {m T : ℕ} {asSigned : Bool} (h : w.Holds le L m T) (hw : w.numBits < 8) :
    Ends (asBytesPartial le asSigned w) fun
      | none => ¬BitsFit asSigned T L
      | some w => w.Full le L m T ∧ BitsFit asSigned T L := by
  have hlen := h.len
  have hroom := h.room
  have hbits := h.packed.bits
  have hsign := Bool.toNat_le asSigned
  unfold asBytesPartial BitsFit
  split_ifs with hzero hfull hsigned
  · exact Ends.pure (by dsimp only; omega)
  · refine Ends.bind (wrByte_ends (by omega)) fun dst hdst => Ends.pure ⟨⟨?_, ?_, ?_, ?_, ?_, ?_⟩, ?_⟩
    · rw [← hlen, ← length_significant le, hdst, List.length_set, length_significant]
    · dsimp only
      omega
    · dsimp only
      omega
    · dsimp only
      omega
    · have hlast := (h.packed.last (by omega) (by rw [length_significant]; omega)).1
      rw [Nat.zero_add] at hlast
      dsimp only
      rwa [hdst, h.packed.mask, hlen, show (T + 7) / 8 = L - w.remaining + 1 by omega]
    · have hlast := (h.packed.last (by omega) (by rw [length_significant]; omega)).2
      rw [Nat.zero_add] at hlast
      dsimp only
      rwa [hdst, h.packed.mask, hlen, show (T + 7) / 8 = L - w.remaining + 1 by omega]
    · omega
  · exact Ends.pure (by dsimp only; rw [hsigned.2, Bool.toNat_true]; omega)
  · have hnone : w.numBits = 0 := by omega
    have hbytes : L - w.remaining = (T + 7) / 8 := by omega
    have hp := h.packed
    rw [hnone, hbytes] at hp
    refine Ends.pure ⟨⟨hlen, hroom, hbytes, by omega, hp.done, hp.below⟩, ?_⟩
    cases asSigned with
    | true =>
      have : w.remaining ≠ 0 := fun h0 => hsigned ⟨h0, rfl⟩
      omega
    | false =>
      rw [Bool.toNat_false]
      omega

theorem decrByte_partial : ∀ bits < 8, ∀ byte < 2 ^ bits, byte ≠ 0 →
    byte &&& (0xff - (1 <<< bits - 1)) ||| ((byte &&& (1 <<< bits - 1)) + 0xff) % 0x100 &&& (1 <<< bits - 1) =
      byte - 1 := by
  decide +kernel

theorem asBytesDecr_ends {dst : List ℕ} {m T : ℕ} (hm : 0 < m) (hT : m < 2 ^ T) (hlen : (T + 7) / 8 ≤ dst.length)
    (hbelow : Below (2 ^ 8) (significant le dst) 0 ((T + 7) / 8))
    (hval : seg (2 ^ 8) (significant le dst) 0 ((T + 7) / 8) = m) :
    Ends (asBytesDecr le dst T) fun d => SameOut (significant le dst) (significant le d) 0 ((T + 7) / 8) ∧
      seg (2 ^ 8) (significant le d) 0 ((T + 7) / 8) + 1 = m ∧
      Below (2 ^ 8) (significant le d) 0 ((T + 7) / 8) := by
  subst hval
  have hlen' : (T + 7) / 8 ≤ (significant le dst).length := by rwa [length_significant]
  unfold asBytesDecr
  refine loop_ends (fun s => s.2.1 + 8 * s.1 = T ∧ SameOut (significant le dst) (significant le s.2.2) 0 s.1 ∧
    ∀ j < s.1, cell (significant le dst) j = 0 ∧ cell (significant le s.2.2) j = 2 ^ 8 - 1) (fun s => s.2.1)
    ⟨rfl, SameOut.refl, by simp⟩ (Nat.lt_succ_self _) ?_
  rintro ⟨k, numBits, d⟩ ⟨hbits, hsame, hborrow⟩
  dsimp only at hbits hsame hborrow ⊢
  have hdlen : d.length = dst.length := by simpa using hsame.length
  have hcell : cell (significant le d) k = cell (significant le dst) k := hsame.out _ (by omega)
  have hzero : seg (2 ^ 8) (significant le dst) 0 k = 0 :=
    seg_eq_zero fun j hj => by rw [Nat.zero_add, (hborrow j hj).1]
  split_ifs with h8 hpart
  · have hk := hbelow k (by omega)
    rw [Nat.zero_add] at hk
    rw [rdByte_of_lt (by omega), some_bind, hcell]
    refine Ends.bind (wrByte_ends (by omega)) fun d' hd' => Ends.pure ?_
    split_ifs with hb
    · have hlast := decrement_last (by norm_num) hsame hborrow (show k < (T + 7) / 8 by omega) hlen' hb hbelow
      have hbyte : (cell (significant le dst) k + 0xff) % 0x100 = cell (significant le dst) k - 1 := by omega
      change SameOut _ (significant le d') _ _ ∧ _
      rwa [hd', hbyte]
    · have hb0 : cell (significant le dst) k = 0 := by omega
      refine ⟨⟨by dsimp only; omega, ?_, fun j hj => ?_⟩, by dsimp only; omega⟩
      · dsimp only
        rw [hd']
        exact (hsame.mono le_rfl (by omega)).trans (SameOut.set.mono (Nat.zero_le _) (by omega))
      · dsimp only at hj ⊢
        rw [hd']
        rcases Nat.lt_succ_iff_lt_or_eq.mp hj with hj | rfl
        · rw [cell_set_of_ne (by omega)]
          exact hborrow j hj
        · rw [cell_set_self (by rw [length_significant]; omega), hb0]
          exact ⟨rfl, rfl⟩
  · -- only the bits of the last byte are left: they hold all of the number
    have hK : (T + 7) / 8 = k + 1 := by omega
    have hpow : 2 ^ T = 2 ^ numBits * (2 ^ 8) ^ k := by rw [← pow_mul, ← pow_add, hbits]
    rw [hK, seg_succ, hzero, Nat.zero_add, Nat.zero_add] at hT hm
    have hb : cell (significant le dst) k ≠ 0 := fun h => by simp [h] at hm
    have hblt : cell (significant le dst) k < 2 ^ numBits := by
      rw [hpow] at hT
      exact lt_of_mul_lt_mul_right hT (Nat.zero_le _)
    rw [rdByte_of_lt (by omega), some_bind, hcell]
    refine Ends.bind (wrByte_ends (by omega)) fun d' hd' => Ends.pure ?_
    have hlast := decrement_last (by norm_num) hsame hborrow (show k < (T + 7) / 8 by omega) hlen' hb hbelow
    change SameOut _ (significant le d') _ _ ∧ _
    rwa [hd', decrByte_partial numBits (by omega) _ hblt hb]
  · have hK : (T + 7) / 8 = k := by omega
    rw [hK, hzero] at hm
    omega

theorem asBytesInv_ends {dst : List ℕ} {T : ℕ} (hlen : (T + 7) / 8 ≤ dst.length)
    (hbelow : Below (2 ^ 8) (significant le dst) 0 ((T + 7) / 8)) :
    Ends (asBytesInv le dst T) fun d => SameOut (significant le dst) (significant le d) 0 ((T + 7) / 8) ∧
      ∀ i < (T + 7) / 8, cell (significant le d) i + cell (significant le dst) i + 1 = 2 ^ 8 := by
  have hstep : ∀ k < (T + 7) / 8, ∀ d, SameOut (significant le dst) (significant le d) 0 k →
      (∀ i < k, cell (significant le d) i + cell (significant le dst) i + 1 = 2 ^ 8) →
      Ends (do wrByte le d k (0xff - (← rdByte le d k))) fun d =>
        SameOut (significant le dst) (significant le d) 0 (k + 1) ∧
        ∀ i < k + 1, cell (significant le d) i + cell (significant le dst) i + 1 = 2 ^ 8 := by
    intro k hk d hsame hinv
    have hdlen : d.length = dst.length := by simpa using hsame.length
    have hb := hbelow k hk
    rw [Nat.zero_add] at hb
    rw [rdByte_of_lt (by omega), some_bind, hsame.out k (by omega)]
    refine (wrByte_ends (by omega)).mono fun d' hd' => ?_
    rw [hd']
    refine ⟨(hsame.mono le_rfl (by omega)).trans (SameOut.set.mono (Nat.zero_le _) (by omega)), fun i hi => ?_⟩
    rcases Nat.lt_succ_iff_lt_or_eq.mp hi with hi | rfl
    · rw [cell_set_of_ne (by omega), hinv i hi]
    · rw [cell_set_self (by rw [length_significant]; omega)]
      omega
  unfold asBytesInv
  dsimp only
  refine Ends.bind (P := fun d => SameOut (significant le dst) (significant le d) 0 (T / 8) ∧
    ∀ i < T / 8, cell (significant le d) i + cell (significant le dst) i + 1 = 2 ^ 8) ?_ ?_
  · exact forLoop_ends_zero (fun k d => SameOut (significant le dst) (significant le d) 0 k ∧
      ∀ i < k, cell (significant le d) i + cell (significant le dst) i + 1 = 2 ^ 8) ⟨SameOut.refl, by simp⟩
      fun k d hk ⟨hsame, hinv⟩ => hstep k (by omega) d hsame hinv
  rintro d ⟨hsame, hinv⟩
  split_ifs with hpart
  · rw [show (T + 7) / 8 = T / 8 + 1 by omega]
    exact hstep _ (by omega) d hsame hinv
  · rw [show (T + 7) / 8 = T / 8 by omega]
    exact Ends.pure ⟨hsame, hinv⟩

end Encoder

/-! ### What the encoder writes -/

/-- The `length` bytes of `v` in two's complement. -/
def twosComplement (littleEndian : Bool) (length : ℕ) (v : ℤ) : List ℕ :=
  significant littleEndian ((List.range length).map fun k => (v / 2 ^ (8 * k) % 256).toNat)

/-- The integers that `length` bytes can hold. -/
def InByteRange (v : ℤ) (length : ℕ) (asSigned : Bool) : Prop :=
  if asSigned then (if length = 0 then v = 0 else -2 ^ (8 * length - 1) ≤ v ∧ v < 2 ^ (8 * length - 1))
  else 0 ≤ v ∧ v < 2 ^ (8 * length)

instance (v : ℤ) (length : ℕ) (asSigned : Bool) : Decidable (InByteRange v length asSigned) :=
  inferInstanceAs (Decidable (if asSigned then
    (if length = 0 then v = 0 else -2 ^ (8 * length - 1) ≤ v ∧ v < 2 ^ (8 * length - 1)) else 0 ≤ v ∧ v < 2 ^ (8 * length)))

/-- The integers that `DeeInt_AsBytes` accepts. -/
def AsBytesAccepts (v : ℤ) (length : ℕ) (asSigned : Bool) : Prop :=
  v = 0 ∨ (v < 0 → asSigned = true) ∧ BitsFit asSigned v.natAbs.size length

/-- It accepts all integers in the range but the least one of a signed range. -/
theorem asBytesAccepts_iff {v : ℤ} {length : ℕ} {asSigned : Bool} : AsBytesAccepts v length asSigned ↔
    InByteRange v length asSigned ∧ ¬(asSigned = true ∧ 0 < length ∧ v = -2 ^ (8 * length - 1)) := by
  unfold AsBytesAccepts InByteRange BitsFit
  cases asSigned with
  | false =>
    have hsize : v.natAbs.size ≤ 8 * length ↔ v.natAbs < 2 ^ (8 * length) := Nat.size_le
    have hcast : ((2 ^ (8 * length) : ℕ) : ℤ) = 2 ^ (8 * length) := by push_cast; rfl
    have hpos : 0 < 2 ^ (8 * length) := Nat.two_pow_pos _
    simp only [Bool.false_eq_true, imp_false, false_and, not_false_eq_true, and_true, if_false, Bool.toNat_false,
      Nat.add_zero, hsize, ← hcast]
    omega
  | true =>
    rcases Nat.eq_zero_or_pos length with rfl | hlen
    · have hsize : v.natAbs.size = 0 ↔ v.natAbs = 0 := Nat.size_eq_zero
      simp
    · have hsize : v.natAbs.size + 1 ≤ 8 * length ↔ v.natAbs < 2 ^ (8 * length - 1) := by
        rw [← Nat.size_le]
        omega
      have hcast : ((2 ^ (8 * length - 1) : ℕ) : ℤ) = 2 ^ (8 * length - 1) := by push_cast; rfl
      have hpos : 0 < 2 ^ (8 * length - 1) := Nat.two_pow_pos _
      simp only [implies_true, true_and, if_true, Bool.toNat_true, hsize, ← hcast, hlen]
      rw [if_neg (by omega)]
      omega

theorem eq_twosComplement {le : Bool} {out : List ℕ} {v q : ℤ} (hbelow : Below (2 ^ 8) (significant le out) 0 out.length)
    (hval : (seg (2 ^ 8) (significant le out) 0 out.length : ℤ) = v + 2 ^ (8 * out.length) * q) :
    out = twosComplement le out.length v := by
  unfold twosComplement
  rw [← significant_significant le out, length_significant]
  congr 1
  refine List.ext_getElem (by simp) fun k hk _ => ?_
  rw [length_significant] at hk
  have hcell := cell_eq_div_mod hbelow hk
  have hklen : k < (significant le out).length := by rwa [length_significant]
  have hget : (significant le out)[k] = cell (significant le out) k := by
    simp [cell, hk]
  rw [hget, hcell, List.getElem_map, List.getElem_range]
  have hv : v = (seg (2 ^ 8) (significant le out) 0 out.length : ℤ) +
      2 ^ (8 * k) * (256 * (2 ^ (8 * (out.length - k - 1)) * -q)) := by
    have hpow : (2 : ℤ) ^ (8 * out.length) = 2 ^ (8 * k) * (256 * 2 ^ (8 * (out.length - k - 1))) := by
      rw [show (256 : ℤ) = 2 ^ 8 by norm_num, ← pow_add, ← pow_add]
      congr 1
      omega
    rw [hval, hpow]
    ring
  rw [hv, Int.add_mul_ediv_left _ _ (by positivity), Int.add_mul_emod_self_left, ← pow_mul]
  norm_cast

/-- The bytes above the written ones become sign bytes. -/
theorem ByteWriter.Full.fill {le : Bool} {L m T v : ℕ} {w : ByteWriter} (h : w.Full le L m T) :
    Ends (fillCells w.dst (if le then L - w.remaining else 0) v w.remaining) fun d => d.length = L ∧
      seg (2 ^ 8) (significant le d) 0 ((T + 7) / 8) = m ∧ Below (2 ^ 8) (significant le d) 0 ((T + 7) / 8) ∧
      ∀ i, (T + 7) / 8 ≤ i → i < L → cell (significant le d) i = v := by
  have hlen := h.len
  have hbytes := h.bytes
  have hfill := fillBytes_ends le v (show w.remaining ≤ w.dst.length by rw [hlen]; exact h.room)
  rw [hlen] at hfill
  refine hfill.mono fun d ⟨hout, hhigh⟩ => ?_
  have hsame : ∀ i < (T + 7) / 8, cell (significant le d) (0 + i) = cell (significant le w.dst) (0 + i) :=
    fun i hi => hout.out _ (by omega)
  refine ⟨by simpa [hlen] using hout.length, ?_, fun i hi => ?_, fun i hlo hhi => hhigh i (by omega) hhi⟩
  · rw [seg_congr hsame, h.value]
  · rw [hsame i hi]
    exact h.below i hi

/-- After `dec(); inv();` the bytes hold the negated number. -/
theorem asBytesNegate_ends {le : Bool} {d : List ℕ} {m T : ℕ} (hm : 0 < m) (hT : m < 2 ^ T) (hlen : T ≤ 8 * d.length)
    (hval : seg (2 ^ 8) (significant le d) 0 ((T + 7) / 8) = m)
    (hbelow : Below (2 ^ 8) (significant le d) 0 ((T + 7) / 8))
    (hhigh : ∀ i, (T + 7) / 8 ≤ i → i < d.length → cell (significant le d) i = 0xff) :
    Ends (asBytesNegate le d T) fun out => out.length = d.length ∧
      Below (2 ^ 8) (significant le out) 0 d.length ∧
      seg (2 ^ 8) (significant le out) 0 d.length + m = (2 ^ 8) ^ d.length := by
  refine Ends.bind (asBytesDecr_ends hm hT (by omega) hbelow hval) fun d₁ ⟨hout₁, hval₁, hbelow₁⟩ => ?_
  have hlen₁ : d₁.length = d.length := by simpa using hout₁.length
  refine (asBytesInv_ends (by omega) hbelow₁).mono fun d₂ ⟨hout₂, hinv⟩ => ?_
  have hlen₂ : d₂.length = d.length := by simpa [hlen₁] using hout₂.length
  obtain ⟨k, hk⟩ : ∃ k, d.length = (T + 7) / 8 + k := ⟨d.length - (T + 7) / 8, by omega⟩
  have htop : ∀ i < k, cell (significant le d₂) ((T + 7) / 8 + i) = 2 ^ 8 - 1 := fun i hi => by
    rw [hout₂.out _ (by omega), hout₁.out _ (by omega), hhigh _ (by omega) (by omega)]
    rfl
  refine ⟨hlen₂, fun i hi => ?_, ?_⟩
  · by_cases hi' : i < (T + 7) / 8
    · have := hinv i hi'
      rw [Nat.zero_add]
      omega
    · have := htop (i - (T + 7) / 8) (by omega)
      rw [show 0 + i = (T + 7) / 8 + (i - (T + 7) / 8) by omega]
      omega
  · have hlow := seg_invert hinv
    have hmax := seg_max (s := (T + 7) / 8) (by norm_num) htop
    have hmul : (2 ^ 8) ^ ((T + 7) / 8) * (seg (2 ^ 8) (significant le d₂) ((T + 7) / 8) k + 1) =
        (2 ^ 8) ^ ((T + 7) / 8) * (2 ^ 8) ^ k := by rw [hmax]
    rw [hk, seg_add, Nat.zero_add, pow_add]
    rw [Nat.mul_add] at hmul
    omega

/-- `DeeInt_AsBytes` writes the two's complement of what it accepts, and raises an overflow for the rest. -/
theorem deeIntAsBytes_ends {self : DeeInt} {dst : List ℕ} {le asSigned : Bool} (hself : self.Canonical) :
    Ends (deeIntAsBytes self dst le asSigned) fun r =>
      AsBytesAccepts self.toInt dst.length asSigned ∧ r = .ok (twosComplement le dst.length self.toInt) ∨
      ¬AsBytesAccepts self.toInt dst.length asSigned ∧
        ∃ signed positive, r = .error (.integerOverflow self (dst.length * 8) signed positive) := by
  have hneg := hself.toInt_neg_iff
  have hnat := natAbs_toInt self
  unfold deeIntAsBytes
  dsimp only
  by_cases hsize : self.absSize = 0
  · have hv := toInt_of_absSize_zero hsize
    rw [if_pos hsize]
    refine Ends.bind (fillCells_ends (by omega)) fun out ⟨hout, hzero⟩ => Ends.pure (Or.inl ⟨Or.inl hv, ?_⟩)
    have hlen := hout.length
    have hcell : ∀ i < out.length, cell (significant le out) i = 0 := fun i hi => by
      have := hzero _ (byteIndex_lt le (hlen ▸ hi : i < dst.length))
      rwa [cell_significant hi, hlen, ← Nat.zero_add (byteIndex le _ _)]
    rw [← hlen]
    refine congrArg Except.ok (eq_twosComplement (q := 0) (fun i hi => ?_) ?_)
    · rw [Nat.zero_add, hcell i hi]
      norm_num
    · rw [seg_eq_zero fun i hi => by rw [Nat.zero_add, hcell i hi], hv]
      simp
  have hmag := hself.mag_pos (by omega)
  rw [if_neg hsize]
  by_cases hunsigned : self.obSize < 0 ∧ (!asSigned) = true
  · rw [if_pos hunsigned]
    refine Ends.pure (Or.inr ⟨?_, false, false, rfl⟩)
    rintro (hv | ⟨hs, -⟩)
    · omega
    · simpa [hs (hneg.mpr hunsigned.1)] using hunsigned.2
  rw [if_neg hunsigned]
  have haccept : AsBytesAccepts self.toInt dst.length asSigned ↔ BitsFit asSigned self.mag.size dst.length := by
    unfold AsBytesAccepts
    rw [hnat, or_iff_right (by omega), and_iff_right]
    intro hv
    by_contra hs
    exact hunsigned ⟨hneg.mp hv, by simpa using hs⟩
  rw [haccept]
  refine Ends.bind (asBytesDigits_ends hself (by omega)) ?_
  rintro (_ | full) hfull
  · refine Ends.pure (Or.inr ⟨?_, asSigned, true, rfl⟩)
    unfold Flushed at hfull
    unfold BitsFit
    omega
  refine Ends.bind (asBytesPartial_ends hfull.1 hfull.2) ?_
  rintro (_ | w) hw
  · exact Ends.pure (Or.inr ⟨hw, asSigned, true, rfl⟩)
  obtain ⟨hw, hfit⟩ := hw
  have htotal : (if w.numBits ≠ 0 then w.numBits + (dst.length - w.remaining) * 8 - 8
      else w.numBits + (dst.length - w.remaining) * 8) = self.mag.size := by
    have hbits := hw.bits
    have hbytes := hw.bytes
    split_ifs <;> omega
  refine Ends.bind hw.fill fun d ⟨hlen, hval, hbelow, hhigh⟩ => ?_
  rw [htotal]
  rw [← hlen] at hfit hhigh ⊢
  have hT : self.mag.size ≤ 8 * d.length := by
    unfold BitsFit at hfit
    omega
  by_cases hs : self.obSize < 0
  · rw [if_pos hs] at hhigh ⊢
    refine Ends.bind (asBytesNegate_ends hmag (Nat.lt_size_self _) hT hval hbelow hhigh) ?_
    rintro out ⟨hlen, hbelow, hsum⟩
    rw [← hlen] at hfit hbelow hsum ⊢
    refine Ends.pure (Or.inl ⟨hfit, congrArg Except.ok (eq_twosComplement (q := 1) hbelow ?_)⟩)
    have hcast : (seg (2 ^ 8) (significant le out) 0 out.length : ℤ) + self.mag = 2 ^ (8 * out.length) := by
      rw [pow_mul]
      exact_mod_cast hsum
    rw [toInt_of_neg hs, ← hcast]
    ring
  · rw [if_neg hs] at hhigh ⊢
    refine Ends.pure (Or.inl ⟨hfit, congrArg Except.ok (eq_twosComplement (q := 0) (fun i hi => ?_) ?_)⟩)
    · by_cases hi' : i < (self.mag.size + 7) / 8
      · exact hbelow i hi'
      · rw [Nat.zero_add, hhigh i (by omega) hi]
        norm_num
    · obtain ⟨k, hk⟩ : ∃ k, d.length = (self.mag.size + 7) / 8 + k := ⟨d.length - (self.mag.size + 7) / 8, by omega⟩
      have htop : seg (2 ^ 8) (significant le d) (0 + (self.mag.size + 7) / 8) k = 0 :=
        seg_eq_zero fun i hi => hhigh _ (by omega) (by omega)
      have hsum : seg (2 ^ 8) (significant le d) 0 d.length = self.mag := by
        rw [hk, seg_add, hval, htop, Nat.mul_zero, Nat.add_zero]
      rw [hsum, toInt_of_nonneg (by omega)]
      ring

/-! ### The length of `int.tobytes` -/

/-- `POPCOUNT` of a digit. -/
def popcount : ℕ → ℕ → ℕ
  | 0, _ => 0
  | w + 1, x => x % 2 + popcount w (x / 2)

/-- `int_reqbits`; the error is `(size_t)-1`. -/
def intReqbits (self : DeeInt) (isSigned : Bool) : Option (Except IntError ℕ) :=
  if self.obSize < 0 ∧ !isSigned then
    some (.error (.integerOverflow self 0 false false))
  else do
    let digitCount ← loop (fun n =>
      if n = 0 then some (.done n)
      else do
        let d ← rd self.obDigit (n - 1)
        some (if d = 0 then .next (n - 1) else .done n)) (self.absSize + 1) self.absSize
    if digitCount = 0 then some (.ok 1)
    else do
      let result := (digitCount - 1) * digitBits
      let lastDigit ← rd self.obDigit (digitCount - 1)
      assert (lastDigit ≠ 0)
      if self.obSize < 0 then do
        let result := result + 1
        let result ← (if popcount digitBits lastDigit = 1 then do
            let limit ← loop (fun i =>
              if i < digitCount - 1 then do
                let d ← rd self.obDigit i
                some (if d ≠ 0 then .done false else .next (i + 1))
              else some (.done true)) digitCount 0
            some (if limit then if digitCount = 1 ∧ lastDigit = 1 then result else result - 1 else result)
          else some result)
        let bits ← loop (fun (result, lastDigit) =>
          let lastDigit := lastDigit >>> 1 ||| digitBase >>> 1
          some (if lastDigit ≠ digitMask then .next (result + 1, lastDigit) else .done (result + 1)))
          (digitBits + 1) (result, digitMask - lastDigit)
        some (.ok bits)
      else do
        let bits ← loop (fun (result, lastDigit) =>
          let lastDigit := lastDigit >>> 1
          some (if lastDigit ≠ 0 then .next (result + 1, lastDigit) else .done (result + 1)))
          (digitBits + 1) (result, lastDigit)
        some (.ok (if isSigned then bits + 1 else bits))

/-- `int_tobytes`: `length` is `(size_t)-1` and `byteorder` is `none` by default; `uninit` is the fresh buffer. -/
def intTobytes (self : DeeInt) (length : Option ℕ) (byteorder : Option String) (signed : Bool) (uninit : ℕ) :
    Option (Except IntError (List ℕ)) := do
  let length ← (match length with
    | some n => some (Except.ok n)
    | none => do
      match ← intReqbits self signed with
      | .error e => some (.error e)
      | .ok bits => some (.ok ((bits + 7) / 8)))
  match length with
  | .error e => some (.error e)
  | .ok length =>
    let encode (littleEndian : Bool) := deeIntAsBytes self (List.replicate length uninit) littleEndian signed
    match byteorder with
    | none => encode true
    | some "little" => encode true
    | some "big" => encode false
    | some byteorder => some (.error (.invalidByteorder byteorder))

theorem size_div_two {x : ℕ} (hx : 0 < x) : x.size = (x / 2).size + 1 := by
  refine le_antisymm (Nat.size_le.mpr ?_) (Nat.lt_size.mpr ?_)
  · have := Nat.lt_size_self (x / 2)
    rw [pow_succ]
    omega
  · rcases Nat.eq_zero_or_pos (x / 2).size with h | h
    · rwa [h, pow_zero]
    · have := Nat.lt_size.mp (show (x / 2).size - 1 < (x / 2).size by omega)
      rw [show (x / 2).size = (x / 2).size - 1 + 1 by omega, pow_succ]
      omega

theorem popcount_eq_zero {w x : ℕ} (hx : x < 2 ^ w) : popcount w x = 0 ↔ x = 0 := by
  induction w generalizing x with
  | zero => simp [popcount] at *; exact hx
  | succ w ih =>
    rw [popcount, Nat.add_eq_zero_iff, ih (by rw [pow_succ] at hx; omega)]
    omega

/-- A digit with one bit set is a power of two. -/
theorem popcount_eq_one {w x : ℕ} (hx : x < 2 ^ w) : popcount w x = 1 ↔ ∃ j, x = 2 ^ j := by
  induction w generalizing x with
  | zero =>
    obtain rfl : x = 0 := by simpa using hx
    refine ⟨fun h => by simp [popcount] at h, fun ⟨j, hj⟩ => ?_⟩
    have := Nat.two_pow_pos j
    omega
  | succ w ih =>
    have hx' : x / 2 < 2 ^ w := by
      rw [pow_succ] at hx
      omega
    have hz := popcount_eq_zero hx'
    have ih := ih hx'
    rw [popcount]
    constructor
    · intro h
      rcases Nat.mod_two_eq_zero_or_one x with h2 | h2
      · obtain ⟨j, hj⟩ := ih.mp (by omega)
        exact ⟨j + 1, by rw [pow_succ]; omega⟩
      · have := hz.mp (by omega)
        exact ⟨0, by rw [pow_zero]; omega⟩
    · rintro ⟨j, rfl⟩
      cases j with
      | zero =>
        have := hz.mpr (by norm_num)
        norm_num at *
        omega
      | succ j =>
        rw [pow_succ, Nat.mul_mod_left, Nat.mul_div_cancel _ (by norm_num)] at *
        rw [ih.mpr ⟨j, rfl⟩]

/-- A canonical integer is minus a power of two if its last digit is one and the others are zero. -/
theorem mag_eq_two_pow_iff {x : DeeInt} (hx : x.Canonical) {k : ℕ} (hk : x.absSize = k + 1) :
    x.mag = 2 ^ (x.mag.size - 1) ↔
      popcount digitBits (cell x.obDigit k) = 1 ∧ ∀ i < k, cell x.obDigit i = 0 := by
  have hcell := hx.cell_lt (i := k) (by omega)
  have hbelow := hx.below.mono (show k ≤ x.absSize by omega)
  have hlow := seg_lt hbelow
  have hsize := size_mag hx hk
  have hpos : 0 < (cell x.obDigit k).size := Nat.size_pos.mpr (Nat.pos_of_ne_zero (by simpa [hk] using hx.top))
  have hmag : x.mag = seg digitBase x.obDigit 0 k + cell x.obDigit k * digitBase ^ k := by
    rw [mag, hk, seg_succ, Nat.zero_add]
  have hpow : (2 : ℕ) ^ (x.mag.size - 1) = 2 ^ ((cell x.obDigit k).size - 1) * digitBase ^ k := by
    rw [hsize, show 30 * k + (cell x.obDigit k).size - 1 = (cell x.obDigit k).size - 1 + 30 * k by omega, pow_add,
      pow_mul]
  rw [popcount_eq_one hcell]
  constructor
  · intro h
    have hdigit : cell x.obDigit k = 2 ^ ((cell x.obDigit k).size - 1) := by
      have h1 : x.mag / digitBase ^ k = cell x.obDigit k := by
        rw [hmag, Nat.add_mul_div_right _ _ (by positivity), Nat.div_eq_of_lt hlow, Nat.zero_add]
      have h2 : x.mag / digitBase ^ k = 2 ^ ((cell x.obDigit k).size - 1) := by
        rw [h, hpow, Nat.mul_div_cancel _ (by positivity)]
      exact h1.symm.trans h2
    have hzero : seg digitBase x.obDigit 0 k = 0 := by
      rw [hpow, ← hdigit] at h
      omega
    refine ⟨⟨_, hdigit⟩, fun i hi => ?_⟩
    rw [cell_eq_div_mod hbelow hi, hzero]
    simp
  · rintro ⟨⟨j, hj⟩, hzero⟩
    have hseg : seg digitBase x.obDigit 0 k = 0 := seg_eq_zero fun i hi => by rw [Nat.zero_add, hzero i hi]
    rw [hpow, hmag, hseg, Nat.zero_add, hj, Nat.size_pow, Nat.add_sub_cancel]

theorem mag_eq_one_iff {x : DeeInt} (hx : x.Canonical) {k : ℕ} (hk : x.absSize = k + 1) :
    x.mag = 1 ↔ k = 0 ∧ cell x.obDigit k = 1 := by
  cases k with
  | zero => rw [mag, hk, seg_one, and_iff_right rfl]
  | succ k =>
    have hle := hx.le_mag hk
    have : 1 < digitBase ^ (k + 1) := Nat.one_lt_pow (by omega) (by norm_num)
    omega

/-- Shifting a one into the inverse of a digit shifts the digit. -/
theorem inv_shiftRight {d : ℕ} (hd : d < digitBase) :
    (digitMask - d) >>> 1 ||| digitBase >>> 1 = digitMask - d / 2 := by
  have hlow : (digitMask - d) / 2 < 2 ^ 29 := by
    unfold digitBase digitMask at *
    omega
  have hhigh : digitBase >>> 1 = 1 <<< 29 := by decide
  rw [Nat.shiftRight_one, hhigh, Nat.or_comm, ← Nat.shiftLeft_add_eq_or_of_lt hlow]
  unfold digitBase digitMask at *
  omega

/-- `int_reqbits`: the bits of the magnitude, and one more for a sign; but minus a power of two other than one
takes its own bits only. -/
theorem intReqbits_ends {self : DeeInt} {isSigned : Bool} (hself : self.Canonical)
    (hdom : self.toInt < 0 → isSigned = true) :
    Ends (intReqbits self isSigned) fun r => ∃ n, r = .ok n ∧
      (self.toInt = 0 ∧ n = 1 ∨
        self.toInt < 0 ∧ self.mag = 2 ^ (self.mag.size - 1) ∧ self.mag ≠ 1 ∧ n = self.mag.size ∨
        self.toInt ≠ 0 ∧ (self.toInt < 0 → self.mag = 2 ^ (self.mag.size - 1) → self.mag = 1) ∧
          n = self.mag.size + isSigned.toNat) := by
  have hneg := hself.toInt_neg_iff
  have hnat := natAbs_toInt self
  unfold intReqbits
  rw [if_neg (by rintro ⟨hs, hu⟩; simp [hdom (hneg.mpr hs)] at hu)]
  refine Ends.bind (P := fun n => n = self.absSize) ?_ ?_
  · refine loop_ends (fun n => n = self.absSize) id rfl (Nat.lt_succ_self _) ?_
    rintro _ rfl
    split_ifs with hz
    · exact Ends.pure rfl
    · rw [rd_of_lt (hself.lt_length (by omega)), some_bind, if_neg (hself.top (by omega))]
      exact Ends.pure rfl
  rintro _ rfl
  by_cases hz : self.absSize = 0
  · rw [if_pos hz]
    exact Ends.pure ⟨1, rfl, Or.inl ⟨toInt_of_absSize_zero hz, rfl⟩⟩
  obtain ⟨k, hk⟩ : ∃ k, self.absSize = k + 1 := ⟨self.absSize - 1, by omega⟩
  have hmpos := hself.mag_pos (by omega)
  have htop := hself.top (by omega)
  have hlast := hself.cell_lt (i := k) (by omega)
  have hsize := size_mag hself hk
  have hlimit := mag_eq_two_pow_iff hself hk
  have hdsize : (cell self.obDigit k).size ≤ digitBits := Nat.size_le.mpr hlast
  rw [if_neg hz]
  rw [hk, Nat.add_sub_cancel] at htop ⊢
  rw [rd_of_lt (hself.lt_length (by omega)), some_bind, assert_of htop, some_bind]
  by_cases hs : self.obSize < 0
  · have hsigned := hdom (hneg.mpr hs)
    subst hsigned
    rw [if_pos hs]
    dsimp only
    refine Ends.bind (P := fun r => r = k * digitBits + 1 -
      if self.mag = 2 ^ (self.mag.size - 1) ∧ self.mag ≠ 1 then 1 else 0) ?_ ?_
    · have hone : self.mag = 1 ↔ k = 0 ∧ cell self.obDigit k = 1 := mag_eq_one_iff hself hk
      by_cases hp : popcount digitBits (cell self.obDigit k) = 1
      · rw [if_pos hp]
        refine Ends.bind (P := fun limit : Bool => limit = true ↔ ∀ i < k, cell self.obDigit i = 0) ?_ ?_
        · refine loop_ends (fun i => i ≤ k ∧ ∀ j < i, cell self.obDigit j = 0) (fun i => k - i) (by simp) (by simp) ?_
          rintro i ⟨hi, hzero⟩
          split_ifs with hik
          · rw [rd_of_lt (hself.lt_length (by omega)), some_bind]
            refine Ends.pure ?_
            split_ifs with hd
            · exact ⟨fun h => by simp at h, fun h => absurd (h i hik) hd⟩
            · refine ⟨⟨hik, fun j hj => ?_⟩, by dsimp only; omega⟩
              rcases Nat.lt_succ_iff_lt_or_eq.mp hj with hj | rfl
              · exact hzero j hj
              · omega
          · obtain rfl : i = k := by omega
            exact Ends.pure ⟨fun _ => hzero, fun _ => rfl⟩
        · intro limit hl
          rw [and_iff_right hp, ← hl] at hlimit
          simp only [hlimit, Ne, hone, Nat.add_eq_right]
          refine Ends.pure ?_
          by_cases hlim : limit = true
          · by_cases h1 : k = 0 ∧ cell self.obDigit k = 1
            · rw [if_pos hlim, if_pos h1, if_neg fun h => h.2 h1, Nat.sub_zero]
            · rw [if_pos hlim, if_neg h1, if_pos ⟨hlim, h1⟩]
          · rw [if_neg hlim, if_neg fun h => hlim h.1, Nat.sub_zero]
      · have hnot : ¬(self.mag = 2 ^ (self.mag.size - 1) ∧ self.mag ≠ 1) := fun h => hp (hlimit.mp h.1).1
        rw [if_neg hp, if_neg hnot]
        exact Ends.pure rfl
    rintro _ rfl
    refine Ends.bind (P := fun bits => bits = k * digitBits + 1 -
      (if self.mag = 2 ^ (self.mag.size - 1) ∧ self.mag ≠ 1 then 1 else 0) + (cell self.obDigit k).size) ?_ ?_
    · generalize k * digitBits + 1 - (if self.mag = 2 ^ (self.mag.size - 1) ∧ self.mag ≠ 1 then 1 else 0) = r
      refine loop_ends (fun s => ∃ d, 0 < d ∧ d < digitBase ∧ s.2 = digitMask - d ∧
        s.1 + d.size = r + (cell self.obDigit k).size) (fun s => (digitMask - s.2).size)
        ⟨_, Nat.pos_of_ne_zero htop, hlast, rfl, rfl⟩ ?_ ?_
      · dsimp only
        rw [Nat.sub_sub_self (by unfold digitBase digitMask at *; omega)]
        omega
      rintro ⟨result, _⟩ ⟨d, hpos, hlt, rfl, hsum⟩
      dsimp only at hsum ⊢
      rw [inv_shiftRight hlt, Nat.sub_sub_self (by unfold digitBase digitMask at *; omega)]
      rw [size_div_two hpos] at hsum
      refine Ends.pure ?_
      split_ifs with hd
      · refine ⟨⟨d / 2, by unfold digitMask at hd; omega, by omega, rfl, by dsimp only; omega⟩, ?_⟩
        dsimp only
        rw [Nat.sub_sub_self (by unfold digitBase digitMask at *; omega), size_div_two hpos]
        exact Nat.lt_succ_self _
      · have hd0 : d / 2 = 0 := by
          unfold digitBase digitMask at *
          omega
        have : (d / 2).size = 0 := Nat.size_eq_zero.mpr hd0
        unfold Step.Sat
        omega
    rintro _ rfl
    refine Ends.pure ⟨_, rfl, ?_⟩
    rw [Bool.toNat_true]
    unfold digitBits
    split_ifs with hl
    · exact Or.inr (Or.inl ⟨by omega, hl.1, hl.2, by omega⟩)
    · exact Or.inr (Or.inr ⟨by omega, fun _ hp => by_contra fun hne => hl ⟨hp, hne⟩, by omega⟩)
  · rw [if_neg hs]
    refine Ends.bind (P := fun bits => bits = k * digitBits + (cell self.obDigit k).size) ?_ ?_
    · refine loop_ends (fun s => 0 < s.2 ∧ s.1 + s.2.size = k * digitBits + (cell self.obDigit k).size)
        (fun s => s.2.size) ⟨Nat.pos_of_ne_zero htop, rfl⟩ (by dsimp only; omega) ?_
      rintro ⟨result, d⟩ ⟨hpos, hsum⟩
      dsimp only at hpos hsum ⊢
      rw [Nat.shiftRight_one, size_div_two hpos] at *
      refine Ends.pure ?_
      split_ifs with hd
      · exact ⟨⟨by dsimp only; omega, by dsimp only; omega⟩, by dsimp only; omega⟩
      · have : (d / 2).size = 0 := Nat.size_eq_zero.mpr (by omega)
        unfold Step.Sat
        omega
    rintro _ rfl
    refine Ends.pure ⟨_, rfl, Or.inr (Or.inr ⟨?_, fun h => absurd (hneg.mp h) hs, ?_⟩)⟩
    · omega
    · rw [hsize]
      cases isSigned
      · rw [Bool.toNat_false, if_neg (by simp), Nat.mul_comm, Nat.add_zero]
      · rw [Bool.toNat_true, if_pos rfl, Nat.mul_comm]

/-- `int_tobytes` that picks its own length overflows on `-2 ^ (8 * k + 7)` only. -/
theorem intTobytes_ends {self : DeeInt} {byteorder : Option String} {signed : Bool} (uninit : ℕ)
    (hself : self.Canonical) (hdom : self.toInt < 0 → signed = true)
    (horder : byteorder = none ∨ byteorder = some "little" ∨ byteorder = some "big") :
    Ends (intTobytes self none byteorder signed uninit) fun r =>
      (∃ bytes, r = .ok bytes) ↔ ¬(signed = true ∧ ∃ k, self.toInt = -2 ^ (8 * k + 7)) := by
  have hnat := natAbs_toInt self
  unfold intTobytes
  refine Ends.bind (P := fun r => ∃ L, r = .ok L ∧
    (AsBytesAccepts self.toInt L signed ↔ ¬(signed = true ∧ ∃ k, self.toInt = -2 ^ (8 * k + 7)))) ?_ ?_
  · refine Ends.bind (intReqbits_ends hself hdom) ?_
    rintro _ ⟨n, rfl, hn⟩
    refine Ends.pure ⟨_, rfl, ?_⟩
    have hpow : ∀ k, (self.toInt = -2 ^ (8 * k + 7) ↔ self.toInt < 0 ∧ self.mag = 2 ^ (8 * k + 7)) := fun k => by
      have hcast : ((2 ^ (8 * k + 7) : ℕ) : ℤ) = 2 ^ (8 * k + 7) := by push_cast; rfl
      have := Nat.two_pow_pos (8 * k + 7)
      rw [← hcast]
      omega
    simp only [hpow]
    unfold AsBytesAccepts BitsFit
    rw [hnat]
    rcases hn with ⟨h0, rfl⟩ | ⟨hneg, hlimit, hone, rfl⟩ | ⟨h0, hone, rfl⟩
    · simp [h0]
    · have hs := hdom hneg
      subst hs
      have hk : ∀ k, self.mag = 2 ^ (8 * k + 7) ↔ self.mag.size = 8 * k + 8 := fun k => by
        constructor
        · intro h
          rw [h, Nat.size_pow]
        · intro h
          rw [hlimit, h]
          rfl
      simp only [hk, hneg, Bool.toNat_true, true_and, implies_true]
      have hsize : self.mag.size ≠ 1 := fun h => hone (by rw [hlimit, h]; rfl)
      have hpos : self.mag.size ≠ 0 := fun h => by
        have := Nat.size_eq_zero.mp h
        omega
      rw [or_iff_right (by omega)]
      refine ⟨fun h ⟨k, hk⟩ => by omega, fun h => by_contra fun hlt => ?_⟩
      exact h ⟨self.mag.size / 8 - 1, by omega⟩
    · refine iff_of_true (Or.inr ⟨hdom, by omega⟩) ?_
      rintro ⟨-, k, hneg, hk⟩
      have := hone hneg (by rw [hk, Nat.size_pow]; rfl)
      have := Nat.one_lt_two_pow (show 8 * k + 7 ≠ 0 by omega)
      omega
  · rintro _ ⟨L, rfl, hL⟩
    rw [← hL]
    have hrun : ∀ le, Ends (deeIntAsBytes self (List.replicate L uninit) le signed) fun r =>
        (∃ bytes, r = .ok bytes) ↔ AsBytesAccepts self.toInt L signed := fun le => by
      refine (deeIntAsBytes_ends hself).mono ?_
      rw [List.length_replicate]
      rintro r (⟨hacc, rfl⟩ | ⟨hacc, s, p, rfl⟩) <;> simp [hacc]
    rcases horder with rfl | rfl | rfl
    · exact hrun true
    · exact hrun true
    · exact hrun false

end Deemon.Int
