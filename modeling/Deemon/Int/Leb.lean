import Deemon.Int.FromBytes

/-!
# LEB128

`DeeInt_GetSleb` and `DeeInt_GetUleb` write an integer in groups of seven bits, least significant first, with
bit 7 set in every byte but the last; the signed format keeps the sign in bit 6 of the first byte.
`DeeInt_NewSleb` and `DeeInt_NewUleb` read such bytes back. The reader is a buffer that starts at `*p_reader`;
the run gives the integer and how far the reader has advanced.
-/

namespace Deemon.Int

open Deemon.Run Deemon.Radix DeeInt

/-! ### The writer -/

/-- `temp`, `num_bits`, `src`, `dst` and the memory behind `writer`. -/
structure LebWriter where
  temp : ℕ
  numBits : ℕ
  src : ℕ
  dst : ℕ
  out : List ℕ

/-- `while (num_bits && !((temp >> (num_bits - 1)) & 1)) --num_bits`. -/
def trimBits (temp numBits : ℕ) : Option ℕ :=
  loop (fun n => some (if n ≠ 0 ∧ temp >>> (n - 1) &&& 1 = 0 then .next (n - 1) else .done n)) (numBits + 1) numBits

/-- Reads one more digit; the most significant one without its leading zeros. -/
def LebWriter.refill (obDigit : List ℕ) (size : ℕ) (w : LebWriter) : Option LebWriter := do
  let temp ← fits 64 (w.temp ||| (← rd obDigit w.src) <<< w.numBits)
  let numBits := w.numBits + digitBits
  let numBits ← (if size ≤ w.src + 1 then trimBits temp numBits else some numBits)
  some { w with temp := temp, numBits := numBits, src := w.src + 1 }

/-- `do { *dst++ = 0x80 | (temp & 0x7f); … } while (num_bits >= 7)`. -/
def LebWriter.flush (w : LebWriter) : Option LebWriter :=
  loop (fun w => do
    let out ← wr w.out w.dst (0x80 ||| (w.temp &&& 0x7f))
    let w := { w with temp := w.temp >>> 7, numBits := w.numBits - 7, dst := w.dst + 1, out := out }
    some (if 7 ≤ w.numBits then .next w else .done w)) (w.numBits + 1) w

/-- The last part: what is left in `temp`, or the end of the byte before. -/
def LebWriter.finish (w : LebWriter) : Option (ℕ × List ℕ) :=
  if w.numBits = 0 then do
    let (dst, out) ← (if w.dst = 0 then do some (1, ← wr w.out 0 0) else some (w.dst, w.out))
    let out ← wr out (dst - 1) ((← rd out (dst - 1)) &&& 0x7f)
    some (dst, out)
  else do
    assert (w.temp &&& 0x80 = 0)
    let out ← wr w.out w.dst (w.temp % 2 ^ 8)
    some (w.dst + 1, out)

/-- The loop that both writers share. -/
def lebWrite (obDigit : List ℕ) (size : ℕ) (w : LebWriter) : Option (ℕ × List ℕ) :=
  loop (fun w => do
    let w ← (if w.src < size ∧ w.numBits < 7 then w.refill obDigit size else some w)
    if 7 ≤ w.numBits then do
      some (.next (← w.flush))
    else do
      some (.done (← w.finish))) (2 * size + 2) w

/-- `DeeInt_GetSleb`: how many bytes are written, and the memory behind `writer`. -/
def deeIntGetSleb (self : DeeInt) (writer : List ℕ) : Option (ℕ × List ℕ) :=
  let size := self.absSize
  if self.obSize < 0 then do
    let temp ← rd self.obDigit 0
    let numBits ← (if 1 = size then trimBits temp digitBits else some digitBits)
    if 1 = size ∧ numBits ≤ 6 then do
      some (1, ← wr writer 0 (0x40 ||| temp))
    else do
      let out ← wr writer 0 (0x80 ||| 0x40 ||| (temp &&& 0x3f))
      lebWrite self.obDigit size ⟨temp >>> 6, numBits - 6, 1, 1, out⟩
  else lebWrite self.obDigit size ⟨0, 0, 0, 0, writer⟩

/-- `DeeInt_GetUleb`. -/
def deeIntGetUleb (self : DeeInt) (writer : List ℕ) : Option (ℕ × List ℕ) := do
  assert (0 ≤ self.obSize)
  lebWrite self.obDigit self.absSize ⟨0, 0, 0, 0, writer⟩

/-- `DeeInt_GetSlebMaxSize`, which for integers that are not negative is also `DeeInt_GetUlebMaxSize`. -/
def deeIntGetLebMaxSize (self : DeeInt) : ℕ := (self.absSize + 1) * digitBits / 7

/-! ### The reader -/

/-- `temp`, `num_bits`, `reader`, `dst` and `result->ob_digit`. -/
structure LebReader where
  temp : ℕ
  numBits : ℕ
  reader : ℕ
  dst : ℕ
  obDigit : List ℕ

/-- `while (*reader++ & 0x80) ++num_digits`: the number of bytes. -/
def lebLength (buf : List ℕ) : Option ℕ :=
  loop (fun n => do
    let b ← rd buf (n - 1)
    some (if b &&& 0x80 ≠ 0 then .next (n + 1) else .done n)) (buf.length + 1) 1

/-- `temp |= (twodigits)(*reader & 0x7f) << num_bits; num_bits += 7; ++reader`. -/
def LebReader.take (buf : List ℕ) (r : LebReader) : Option LebReader := do
  let temp ← fits 64 (r.temp ||| ((← rd buf r.reader) &&& 0x7f) <<< r.numBits)
  some { r with temp := temp, numBits := r.numBits + 7, reader := r.reader + 1 }

/-- Reads all groups of an integer that is known to be short. -/
def lebReadShort (buf : List ℕ) (r : LebReader) : Option LebReader :=
  loop (fun r => do
    if (← rd buf (r.reader - 1)) &&& 0x80 ≠ 0 then do
      some (.next (← r.take buf))
    else
      some (.done r)) (buf.length + 1) r

/-- `while (num_bits < DIGIT_BITS && (reader[-1] & 0x80))`: reads the groups of one digit. `DeeInt_NewUleb` drops
the leading zeros of the last group. -/
def lebRefill (isUnsigned : Bool) (buf : List ℕ) (r : LebReader) : Option LebReader :=
  loop (fun r => do
    if r.numBits < digitBits ∧ (← rd buf (r.reader - 1)) &&& 0x80 ≠ 0 then do
      let r ← r.take buf
      if isUnsigned ∧ (← rd buf (r.reader - 1)) &&& 0x80 = 0 then do
        some (.done { r with numBits := ← trimBits r.temp r.numBits })
      else
        some (.next r)
    else
      some (.done r)) (digitBits + 1) r

/-- The loop over the digits. -/
def lebReadDigits (isUnsigned : Bool) (buf : List ℕ) (numDigits : ℕ) (r : LebReader) : Option LebReader :=
  loop (fun r => do
    let r ← lebRefill isUnsigned buf r
    if digitBits ≤ r.numBits then do
      let obDigit ← wr r.obDigit r.dst (r.temp &&& digitMask)
      some (.next { r with temp := r.temp >>> digitBits, numBits := r.numBits - digitBits, dst := r.dst + 1,
                           obDigit := obDigit })
    else if r.numBits = 0 then
      -- without a digit the result is `DeeInt_NewZero()`
      some (.done (if r.dst = 0 then { r with obDigit := deeIntNewZero.obDigit } else r))
    else do
      let obDigit ← wr r.obDigit r.dst (r.temp % 2 ^ 32)
      let dst := if r.temp % 2 ^ 32 ≠ 0 then r.dst + 1 else r.dst
      some (.done { r with dst := dst, obDigit := obDigit })) (numDigits + 2) r

/-- `DeeInt_NewSleb`. -/
def deeIntNewSleb (buf : List ℕ) : Option (DeeInt × ℕ) := do
  let numDigits := ((← lebLength buf) * 7 + (digitBits - 1)) / digitBits
  let firstByte ← rd buf 0
  if numDigits = 1 then do
    let r ← lebReadShort buf ⟨firstByte &&& 0x3f, 6, 1, 0, []⟩
    let z ← (if firstByte &&& 0x40 ≠ 0 then deeIntNewInt64 (-r.temp) else deeIntNewUInt64 r.temp)
    some (z, r.reader)
  else do
    let r ← lebReadDigits false buf numDigits ⟨firstByte &&& 0x3f, 6, 1, 0, (deeIntAlloc numDigits).obDigit⟩
    some (⟨if firstByte &&& 0x40 ≠ 0 then -r.dst else r.dst, r.obDigit⟩, r.reader)

/-- `DeeInt_NewUleb`. -/
def deeIntNewUleb (buf : List ℕ) : Option (DeeInt × ℕ) := do
  let numDigits := ((← lebLength buf) * 7 + (digitBits - 1)) / digitBits
  let firstByte ← rd buf 0
  if numDigits = 1 then do
    let r ← lebReadShort buf ⟨firstByte &&& 0x7f, 7, 1, 0, []⟩
    let z ← deeIntNewUInt64 r.temp
    some (z, r.reader)
  else do
    let r ← lebReadDigits true buf numDigits ⟨firstByte &&& 0x7f, 7, 1, 0, (deeIntAlloc numDigits).obDigit⟩
    some (⟨r.dst, r.obDigit⟩, r.reader)

/-! ### Groups of seven bits -/

/-- The groups that the bytes of a buffer hold. -/
def sevens (buf : List ℕ) : List ℕ := buf.map (· % 2 ^ 7)

@[simp] theorem length_sevens (buf : List ℕ) : (sevens buf).length = buf.length := List.length_map _

@[simp] theorem cell_sevens (buf : List ℕ) (i : ℕ) : cell (sevens buf) i = cell buf i % 2 ^ 7 := by
  unfold cell sevens
  by_cases h : i < buf.length
  · simp [h]
  · simp [Nat.le_of_not_lt h]

theorem sevens_set (buf : List ℕ) (i v : ℕ) : sevens (buf.set i v) = (sevens buf).set i (v % 2 ^ 7) := List.map_set

theorem below_sevens {buf : List ℕ} {s n : ℕ} : Below (2 ^ 7) (sevens buf) s n := fun i _ => by
  rw [cell_sevens]
  exact Nat.mod_lt _ (by norm_num)

theorem or_0x80 : ∀ g < 2 ^ 7, 0x80 ||| g = 2 ^ 7 + g := by decide +kernel

theorem or_0x40 : ∀ g < 2 ^ 6, 0x40 ||| g = 2 ^ 6 + g := by decide +kernel

theorem or_0xc0 : ∀ g < 2 ^ 6, 0x80 ||| 0x40 ||| g = 2 ^ 7 + 2 ^ 6 + g := by decide +kernel

theorem and_0x40_iff : ∀ b < 2 ^ 8, b &&& 0x40 ≠ 0 ↔ b / 2 ^ 6 % 2 = 1 := by decide +kernel

theorem and_0x80_of_lt : ∀ g < 2 ^ 7, g &&& 0x80 = 0 := by decide +kernel

theorem and_0x7f (x : ℕ) : x &&& 0x7f = x % 2 ^ 7 := Nat.and_two_pow_sub_one_eq_mod x 7

/-- The first `n` bytes of a buffer are one integer in LEB128, in as few groups as it takes. -/
structure IsLeb (buf : List ℕ) (n : ℕ) : Prop where
  pos : 0 < n
  len : n ≤ buf.length
  more : ∀ i, i + 1 < n → 2 ^ 7 ≤ cell buf i ∧ cell buf i < 2 ^ 8
  last : cell buf (n - 1) < 2 ^ 7
  top : 1 < n → cell buf (n - 1) ≠ 0

/-! ### What the writers write -/

/-- What the writer's loop keeps: behind `s` bytes that hold the low `e` bits of the magnitude come the groups of
the digits that have been read. -/
structure LebWriter.Holds (x : DeeInt) (s e low : ℕ) (head : List ℕ) (w : LebWriter) : Prop where
  start : s ≤ w.dst
  len : w.out.length = head.length
  src : w.src ≤ x.absSize
  value : ∃ v, low + 2 ^ e * v = seg digitBase x.obDigit 0 w.src ∧
    Packed 7 (sevens w.out) s (w.dst - s) w.temp w.numBits v (7 * (w.dst - s) + w.numBits)
  bits : e + (7 * (w.dst - s) + w.numBits) = if w.src < x.absSize then 30 * w.src else x.mag.size
  head : ∀ i < s, cell w.out i = cell head i
  byte : ∀ i < w.dst, 2 ^ 7 ≤ cell w.out i ∧ cell w.out i < 2 ^ 8

theorem trimBits_ends {temp n : ℕ} (h : temp < 2 ^ n) : Ends (trimBits temp n) fun n => n = temp.size := by
  refine trim_ends (fun b => and_congr_right fun _ => ?_) h (Nat.lt_succ_self _)
  rw [Nat.and_one_is_mod, Nat.shiftRight_eq_div_pow, Nat.testBit_eq_decide_div_mod_eq, decide_eq_false_iff_not]
  omega

section Writer

variable {x : DeeInt} {s e low : ℕ} {head : List ℕ} {w : LebWriter}

theorem size_mag_le (hx : x.Canonical) : x.mag.size ≤ 30 * x.absSize := by
  refine Nat.size_le.mpr ?_
  rw [pow_mul]
  exact hx.mag_lt

/-- The bits of a number whose low `e` bits and `k` groups of seven have been written. -/
theorem size_groups {m S temp k : ℕ} (hlow : low < 2 ^ e) (hS : S < (2 ^ 7) ^ k) (htemp : temp ≠ 0)
    (hm : low + 2 ^ e * (S + temp * 2 ^ (7 * k)) = m) : m.size = e + 7 * k + temp.size := by
  rw [← pow_mul] at hS
  have hlt : low + 2 ^ e * S < 2 ^ (e + 7 * k) := by
    have : 2 ^ e * (S + 1) ≤ 2 ^ e * 2 ^ (7 * k) := Nat.mul_le_mul_left _ hS
    rw [Nat.mul_add, ← pow_add] at this
    omega
  rw [← size_add_mul hlt htemp, ← hm]
  congr 1
  ring

theorem size_groups_le {m S k : ℕ} (hlow : low < 2 ^ e) (hS : S < (2 ^ 7) ^ k) (hm : low + 2 ^ e * S = m) :
    m.size ≤ e + 7 * k := by
  rw [← pow_mul] at hS
  refine Nat.size_le.mpr ?_
  have : 2 ^ e * (S + 1) ≤ 2 ^ e * 2 ^ (7 * k) := Nat.mul_le_mul_left _ hS
  rw [Nat.mul_add, ← pow_add] at this
  omega

theorem LebWriter.Holds.refill (hx : x.Canonical) (h : w.Holds x s e low head) (hlow : low < 2 ^ e)
    (hsrc : w.src < x.absSize) (h7 : w.numBits < 7) :
    Ends (w.refill x.obDigit x.absSize) fun w' => w'.Holds x s e low head ∧ w'.src = w.src + 1 ∧
      (w'.src < x.absSize → 7 ≤ w'.numBits) := by
  obtain ⟨v, hv, hp⟩ := h.value
  have hbits := h.bits
  have hd := hx.cell_lt hsrc
  have hpush := hp.push hd
  rw [if_pos hsrc] at hbits
  have hval : low + 2 ^ e * (v + cell x.obDigit w.src * 2 ^ (7 * (w.dst - s) + w.numBits)) =
      seg digitBase x.obDigit 0 (w.src + 1) := by
    rw [seg_succ, Nat.zero_add, ← hv, ← pow_mul, ← hbits, pow_add]
    ring
  have h64 : w.temp ||| cell x.obDigit w.src <<< w.numBits < 2 ^ 64 :=
    lt_of_lt_of_le hpush.temp_lt (Nat.pow_le_pow_right (by norm_num) (by omega))
  unfold LebWriter.refill
  rw [rd_of_lt (hx.lt_length hsrc), some_bind, fits_of_lt h64, some_bind]
  dsimp only
  by_cases hlast : x.absSize ≤ w.src + 1
  · rw [if_pos hlast]
    refine Ends.bind (trimBits_ends hpush.temp_lt) ?_
    rintro _ rfl
    have hsize : w.src + 1 = x.absSize := by omega
    refine Ends.pure ⟨⟨h.start, h.len, hsrc, ⟨_, hval, ?_⟩, ?_, h.head, h.byte⟩, rfl, fun hlt => ?_⟩
    · exact ⟨hpush.value, hpush.below, Nat.lt_size_self _, rfl⟩
    · dsimp only
      have htop := hx.top (by omega)
      rw [show x.absSize - 1 = w.src by omega] at htop
      have htemp : w.temp ||| cell x.obDigit w.src <<< w.numBits ≠ 0 := fun h0 => by
        have hlt := seg_lt hpush.below
        have hvalue := hpush.value
        rw [h0, Nat.zero_mul, Nat.add_zero] at hvalue
        have hge : 1 * 2 ^ (7 * (w.dst - s) + w.numBits) ≤ cell x.obDigit w.src * 2 ^ (7 * (w.dst - s) + w.numBits) :=
          Nat.mul_le_mul_right _ (Nat.pos_of_ne_zero htop)
        have hle : 2 ^ (7 * (w.dst - s)) ≤ 2 ^ (7 * (w.dst - s) + w.numBits) :=
          Nat.pow_le_pow_right (by norm_num) (Nat.le_add_right _ _)
        rw [← pow_mul] at hlt
        omega
      rw [← hpush.value, hsize] at hval
      rw [if_neg (by omega), mag, size_groups hlow (seg_lt hpush.below) htemp hval]
      omega
    · dsimp only at hlt
      omega
  · rw [if_neg hlast, some_bind]
    refine Ends.pure ⟨⟨h.start, h.len, hsrc, ⟨_, hval, ?_⟩, ?_, h.head, h.byte⟩, rfl, fun _ => ?_⟩
    · rw [Nat.add_assoc] at hpush
      exact hpush
    · dsimp only
      rw [if_pos (by omega)]
      unfold digitBits
      omega
    · dsimp only
      unfold digitBits
      omega

theorem LebWriter.Holds.flush (hx : x.Canonical) (h : w.Holds x s e low head) (h7 : 7 ≤ w.numBits) (hs : 7 * s ≤ e + 1)
    (hroom : deeIntGetLebMaxSize x ≤ head.length) :
    Ends w.flush fun w' => w'.Holds x s e low head ∧ w'.numBits < 7 ∧ w'.src = w.src := by
  have hmag := size_mag_le hx
  unfold LebWriter.flush
  refine loop_ends (fun w' => w'.Holds x s e low head ∧ 7 ≤ w'.numBits ∧ w'.src = w.src) (fun w' => w'.numBits)
    ⟨h, h7, rfl⟩ (Nat.lt_succ_self _) ?_
  rintro w' ⟨h, h7, hsrc⟩
  obtain ⟨v, hv, hp⟩ := h.value
  have hbits := h.bits
  have hstart := h.start
  have hle := h.src
  have hdst : w'.dst < w'.out.length := by
    rw [h.len]
    unfold deeIntGetLebMaxSize digitBits at hroom
    split_ifs at hbits <;> omega
  have hpop := hp.pop h7 (by rw [length_sevens]; omega)
  rw [show s + (w'.dst - s) = w'.dst by omega, show w'.dst - s + 1 = w'.dst + 1 - s by omega] at hpop
  have hgroup : 0x80 ||| (w'.temp &&& 0x7f) = 2 ^ 7 + w'.temp % 2 ^ 7 := by
    rw [and_0x7f, or_0x80 _ (Nat.mod_lt _ (by norm_num))]
  rw [wr_of_lt hdst, some_bind, hgroup]
  have hnext : LebWriter.Holds x s e low head ⟨w'.temp >>> 7, w'.numBits - 7, w'.src, w'.dst + 1,
      w'.out.set w'.dst (2 ^ 7 + w'.temp % 2 ^ 7)⟩ := by
    refine ⟨by dsimp only; omega, by simpa using h.len, hle, ⟨v, hv, ?_⟩, ?_, fun i hi => ?_, fun i hi => ?_⟩
    · dsimp only
      rw [sevens_set, Nat.add_mod_left, Nat.mod_mod]
      rwa [show 7 * (w'.dst + 1 - s) + (w'.numBits - 7) = 7 * (w'.dst - s) + w'.numBits by omega]
    · dsimp only
      rw [← hbits]
      omega
    · dsimp only at hi ⊢
      rw [cell_set_of_ne (by omega), h.head i hi]
    · dsimp only at hi ⊢
      by_cases hi' : i = w'.dst
      · rw [hi', cell_set_self hdst]
        omega
      · rw [cell_set_of_ne (by omega)]
        exact h.byte i (by omega)
  refine Ends.pure ?_
  dsimp only
  split_ifs with hmore
  · exact ⟨⟨hnext, hmore, hsrc⟩, by dsimp only; omega⟩
  · exact ⟨hnext, by dsimp only; omega, hsrc⟩

/-- What `lebWrite` leaves: an encoding of the magnitude behind the first `s` bytes. -/
structure LebWritten (x : DeeInt) (s e low : ℕ) (head : List ℕ) (n : ℕ) (out : List ℕ) : Prop where
  leb : IsLeb out n
  size : n ≤ deeIntGetLebMaxSize x
  start : s ≤ n
  value : low + 2 ^ e * seg (2 ^ 7) (sevens out) s (n - s) = x.mag
  head : ∀ i < s, cell out i = cell head i

theorem LebWriter.Holds.finish (hx : x.Canonical) (h : w.Holds x s e low head) (h7 : w.numBits < 7)
    (hlow : low < 2 ^ e) (hs : 7 * s ≤ e + 1) (hse : 0 < s → e < x.mag.size) (he : s = 0 → e = 0) (hsrc : w.src = x.absSize)
    (hroom : deeIntGetLebMaxSize x ≤ head.length) :
    Ends w.finish fun r => LebWritten x s e low head r.1 r.2 := by
  have hmag := size_mag_le hx
  obtain ⟨v, hv, hp⟩ := h.value
  have hbits := h.bits
  have hstart := h.start
  have hlen := h.len
  rw [hsrc] at hv
  rw [if_neg (by omega)] at hbits
  have hroom' := hroom
  unfold deeIntGetLebMaxSize digitBits at hroom'
  unfold LebWriter.finish
  by_cases h0 : w.numBits = 0
  · rw [if_pos h0]
    by_cases hd : w.dst = 0
    · -- the integer is zero: a single zero byte
      obtain rfl : s = 0 := by omega
      obtain rfl := he rfl
      obtain rfl : low = 0 := by simpa using hlow
      have hzero : x.mag = 0 := Nat.size_eq_zero.mp (by omega)
      rw [if_pos hd, wr_of_lt (by omega), some_bind, some_bind]
      dsimp only
      rw [rd_of_lt (by simp; omega), some_bind, wr_of_lt (by simp; omega), some_bind, cell_set_self (by omega),
        List.set_set, Nat.zero_and]
      have hcell : cell (w.out.set 0 0) 0 = 0 := cell_set_self (by omega)
      refine Ends.pure ⟨⟨Nat.one_pos, by simp; omega, fun i hi => by omega, ?_, fun h => by omega⟩, ?_, Nat.zero_le _, ?_,
        fun i hi => by omega⟩
      · dsimp only
        rw [hcell]
        norm_num
      · unfold deeIntGetLebMaxSize digitBits
        dsimp only
        omega
      · rw [hzero, Nat.sub_zero, seg_one, cell_sevens, hcell]
        rfl
    · obtain ⟨k, hk⟩ : ∃ k, w.dst = s + k + 1 := ⟨w.dst - s - 1, by
        rcases Nat.eq_zero_or_pos s with rfl | hpos
        · omega
        · have := hse hpos
          by_contra hne
          rw [show w.dst - s = 0 by omega] at hbits
          omega⟩
      rw [show w.dst - s = k + 1 by omega, h0] at hp
      have hseg : seg (2 ^ 7) (sevens w.out) s (k + 1) = v := hp.done
      have hbyte := h.byte (s + k) (by omega)
      rw [if_neg hd, some_bind]
      dsimp only
      rw [show w.dst - 1 = s + k by omega, rd_of_lt (by omega), some_bind, wr_of_lt (by omega), some_bind, and_0x7f]
      have hcell : cell (w.out.set (s + k) (cell w.out (s + k) % 2 ^ 7)) (s + k) = cell w.out (s + k) % 2 ^ 7 :=
        cell_set_self (by omega)
      have hsevens : ∀ i, cell (sevens (w.out.set (s + k) (cell w.out (s + k) % 2 ^ 7))) i = cell (sevens w.out) i := fun i => by
        rw [cell_sevens, cell_sevens]
        by_cases hi : i = s + k
        · rw [hi, hcell, Nat.mod_mod]
        · rw [cell_set_of_ne (by omega)]
      refine Ends.pure ⟨⟨by dsimp only; omega, by simp; omega, fun i hi => ?_, ?_, fun _ => ?_⟩, ?_, by dsimp only; omega, ?_,
        fun i hi => ?_⟩
      · dsimp only at hi ⊢
        rw [cell_set_of_ne (by omega)]
        exact h.byte i (by omega)
      · dsimp only
        rw [show w.dst - 1 = s + k by omega, hcell]
        exact Nat.mod_lt _ (by norm_num)
      · dsimp only
        rw [show w.dst - 1 = s + k by omega, hcell, ← cell_sevens]
        intro hz
        rw [seg_succ, hz, Nat.zero_mul, Nat.add_zero] at hseg
        have hlt := size_groups_le (m := x.mag) hlow (seg_lt (hp.below.mono (Nat.le_succ k))) (hseg.symm ▸ hv)
        omega
      · unfold deeIntGetLebMaxSize digitBits
        dsimp only
        omega
      · dsimp only
        rw [seg_congr fun i _ => hsevens (s + i), show w.dst - s = k + 1 by omega, hseg, hv, mag]
      · rw [cell_set_of_ne (by omega), h.head i hi]
  · rw [if_neg h0]
    have htemp : w.temp < 2 ^ 7 := lt_of_lt_of_le hp.temp_lt (Nat.pow_le_pow_right (by norm_num) h7.le)
    have hdst : s + (w.dst - s) = w.dst := by omega
    have hlast := hp.last h7.le (by rw [length_sevens]; omega)
    rw [assert_of (and_0x80_of_lt _ htemp), some_bind, wr_of_lt (by omega), some_bind, Nat.mod_eq_of_lt (by omega)]
    have hcell : cell (w.out.set w.dst w.temp) w.dst = w.temp := cell_set_self (by omega)
    refine Ends.pure ⟨⟨Nat.succ_pos _, by simp; omega, fun i hi => ?_, ?_, fun _ => ?_⟩, ?_, by dsimp only; omega, ?_,
      fun i hi => ?_⟩
    · dsimp only at hi ⊢
      rw [cell_set_of_ne (by omega)]
      exact h.byte i (by omega)
    · dsimp only
      rw [Nat.add_sub_cancel, hcell]
      exact htemp
    · dsimp only
      rw [Nat.add_sub_cancel, hcell]
      intro hz
      have hvalue := hp.value
      rw [hz, Nat.zero_mul, Nat.add_zero] at hvalue
      have hlt := size_groups_le (m := x.mag) hlow (seg_lt hp.below) (hvalue.symm ▸ hv)
      omega
    · unfold deeIntGetLebMaxSize digitBits
      dsimp only
      omega
    · dsimp only
      rw [sevens_set, Nat.mod_eq_of_lt htemp, show w.dst + 1 - s = w.dst - s + 1 by omega]
      rw [hdst] at hlast
      rw [hlast.1, hv, mag]
    · rw [cell_set_of_ne (by omega), h.head i hi]

theorem lebWrite_ends (hx : x.Canonical) (h : w.Holds x s e low head) (hlow : low < 2 ^ e) (hs : 7 * s ≤ e + 1)
    (hse : 0 < s → e < x.mag.size) (he : s = 0 → e = 0) (hroom : deeIntGetLebMaxSize x ≤ head.length) :
    Ends (lebWrite x.obDigit x.absSize w) fun r => LebWritten x s e low head r.1 r.2 := by
  unfold lebWrite
  refine loop_ends (fun w => w.Holds x s e low head)
    (fun w => 2 * (x.absSize - w.src) + if 7 ≤ w.numBits then 1 else 0) h (by split_ifs <;> omega) ?_
  intro w h
  refine Ends.bind (P := fun w' => w'.Holds x s e low head ∧
    (w'.src < x.absSize → 7 ≤ w'.numBits) ∧ (w'.src = w.src + 1 ∨ w' = w)) ?_ ?_
  · have hle := h.src
    split_ifs with hread
    · exact (h.refill hx hlow hread.1 hread.2).mono fun w' hw' =>
        ⟨hw'.1, hw'.2.2, Or.inl hw'.2.1⟩
    · exact Ends.pure ⟨h, by omega, Or.inr rfl⟩
  rintro w' ⟨hw', hmore, hstep⟩
  have hle := h.src
  have hle' := hw'.src
  by_cases h7 : 7 ≤ w'.numBits
  · rw [if_pos h7]
    refine Ends.bind (hw'.flush hx h7 hs hroom) fun w'' ⟨hw'', hless, hsrc⟩ => Ends.pure ⟨hw'', ?_⟩
    dsimp only
    rw [if_neg (by omega)]
    rcases hstep with hsrc' | rfl
    · split_ifs <;> omega
    · rw [if_pos h7]
      omega
  · rw [if_neg h7]
    have hsrc : w'.src = x.absSize := by
      by_contra hne
      exact h7 (hmore (by omega))
    exact Ends.bind (hw'.finish hx (by omega) hlow hs hse he hsrc hroom) fun r hr => Ends.pure hr

/-- `DeeInt_GetSleb` of a negative integer: the first byte has the sign and six bits. -/
theorem deeIntGetSleb_neg (hx : x.Canonical) (hneg : x.obSize < 0) {writer : List ℕ}
    (hroom : deeIntGetLebMaxSize x ≤ writer.length) : Ends (deeIntGetSleb x writer) fun r =>
      IsLeb r.2 r.1 ∧ r.1 ≤ deeIntGetLebMaxSize x ∧ cell r.2 0 / 2 ^ 6 % 2 = 1 ∧
      cell r.2 0 % 2 ^ 6 + 2 ^ 6 * seg (2 ^ 7) (sevens r.2) 1 (r.1 - 1) = x.mag := by
  have hsize : 0 < x.absSize := by
    unfold absSize
    omega
  have hd := hx.cell_lt hsize
  have hroom' := hroom
  unfold deeIntGetLebMaxSize digitBits at hroom'
  unfold deeIntGetSleb
  dsimp only
  rw [if_pos hneg, rd_of_lt (hx.lt_length hsize), some_bind]
  refine Ends.bind (P := fun n => n = if x.absSize = 1 then (cell x.obDigit 0).size else 30) ?_ ?_
  · by_cases h1 : x.absSize = 1
    · rw [if_pos h1.symm, if_pos h1]
      exact trimBits_ends hd
    · rw [if_neg (Ne.symm h1), if_neg h1]
      exact Ends.pure rfl
  rintro nb hnb
  by_cases hshort : 1 = x.absSize ∧ nb ≤ 6
  · obtain ⟨h1, hnb6⟩ := hshort
    rw [if_pos h1.symm] at hnb
    have hd64 : cell x.obDigit 0 < 2 ^ 6 := Nat.size_le.mp (by omega)
    have hor : 0x40 ||| cell x.obDigit 0 = 2 ^ 6 + cell x.obDigit 0 := or_0x40 _ hd64
    have hcell : cell (writer.set 0 (2 ^ 6 + cell x.obDigit 0)) 0 = 2 ^ 6 + cell x.obDigit 0 :=
      cell_set_self (by omega)
    rw [if_pos ⟨h1, hnb6⟩, hor, wr_of_lt (by omega), some_bind]
    refine Ends.pure ⟨⟨Nat.one_pos, by simp; omega, fun i hi => by omega, ?_, fun h => by omega⟩, ?_, ?_, ?_⟩
    · dsimp only
      rw [hcell]
      omega
    · unfold deeIntGetLebMaxSize digitBits
      dsimp only
      omega
    · rw [hcell]
      omega
    · rw [hcell, Nat.sub_self, seg_zero, mag, ← h1, seg_one]
      omega
  · have hnb6 : 6 < nb := by
      by_cases h1 : x.absSize = 1
      · omega
      · rw [if_neg h1] at hnb
        omega
    have hlt : cell x.obDigit 0 < 2 ^ nb := by
      by_cases h1 : x.absSize = 1
      · rw [hnb, if_pos h1]
        exact Nat.lt_size_self _
      · rw [hnb, if_neg h1]
        exact hd
    have hmagsize : x.absSize = 1 ∧ x.mag.size = nb ∨ nb = 30 ∧ 1 < x.absSize ∧ 30 < x.mag.size := by
      by_cases h1 : x.absSize = 1
      · rw [if_pos h1] at hnb
        exact Or.inl ⟨h1, by rw [mag, h1, seg_one, hnb]⟩
      · rw [if_neg h1] at hnb
        have hms := size_mag hx (show x.absSize = x.absSize - 1 + 1 by omega)
        have hpos := Nat.size_pos.mpr (Nat.pos_of_ne_zero (hx.top hsize))
        exact Or.inr ⟨hnb, by omega, by omega⟩
    have hor : 0x80 ||| 0x40 ||| (cell x.obDigit 0 &&& 0x3f) = 2 ^ 7 + 2 ^ 6 + cell x.obDigit 0 % 2 ^ 6 := by
      rw [Nat.and_two_pow_sub_one_eq_mod _ 6, or_0xc0 _ (Nat.mod_lt _ (by norm_num))]
    rw [if_neg hshort, hor, wr_of_lt (by omega), some_bind]
    generalize hhead : writer.set 0 (2 ^ 7 + 2 ^ 6 + cell x.obDigit 0 % 2 ^ 6) = head
    have hlen : head.length = writer.length := by rw [← hhead, List.length_set]
    have hcell : cell head 0 = 2 ^ 7 + 2 ^ 6 + cell x.obDigit 0 % 2 ^ 6 := by
      rw [← hhead, cell_set_self (by omega)]
    have h : LebWriter.Holds x 1 6 (cell x.obDigit 0 % 2 ^ 6) head ⟨cell x.obDigit 0 >>> 6, nb - 6, 1, 1, head⟩ := by
      refine ⟨le_rfl, rfl, hsize, ⟨cell x.obDigit 0 / 2 ^ 6, ?_, ?_⟩, ?_, fun i _ => rfl, fun i hi => ?_⟩
      · rw [seg_one]
        omega
      · dsimp only
        rw [Nat.shiftRight_eq_div_pow]
        refine ⟨by simp, fun i hi => by omega, ?_, rfl⟩
        refine Nat.div_lt_of_lt_mul ?_
        rwa [← pow_add, show 6 + (nb - 6) = nb by omega]
      · dsimp only
        split_ifs <;> omega
      · dsimp only at hi ⊢
        rw [show i = 0 by omega, hcell]
        omega
    refine (lebWrite_ends hx h (Nat.mod_lt _ (by norm_num)) (by norm_num) (fun _ => by omega) (by simp) (by omega)).mono
      fun r hr => ?_
    have hvalue := hr.value
    have hfirst := hr.head 0 (by norm_num)
    rw [hcell] at hfirst
    refine ⟨hr.leb, hr.size, by omega, ?_⟩
    rw [← hvalue, hfirst]
    omega

/-- `DeeInt_GetSleb` and `DeeInt_GetUleb` of an integer that is not negative: all groups have seven bits. -/
theorem lebWrite_pos (hx : x.Canonical) {writer : List ℕ} (hroom : deeIntGetLebMaxSize x ≤ writer.length) :
    Ends (lebWrite x.obDigit x.absSize ⟨0, 0, 0, 0, writer⟩) fun r =>
      IsLeb r.2 r.1 ∧ r.1 ≤ deeIntGetLebMaxSize x ∧ seg (2 ^ 7) (sevens r.2) 0 r.1 = x.mag := by
  have h : LebWriter.Holds x 0 0 0 writer ⟨0, 0, 0, 0, writer⟩ := by
    refine ⟨le_rfl, rfl, Nat.zero_le _, ⟨0, rfl, Packed.zero⟩, ?_, by simp, by simp⟩
    dsimp only
    split_ifs with hsize
    · rfl
    · rw [mag_of_absSize_zero (by omega), Nat.size_zero]
  refine (lebWrite_ends hx h (by norm_num) (by norm_num) (by simp) (fun _ => rfl) hroom).mono fun r hr => ?_
  have hval := hr.value
  rw [pow_zero, Nat.one_mul, Nat.zero_add, Nat.sub_zero] at hval
  exact ⟨hr.leb, hr.size, hval⟩

end Writer

/-! ### What the readers read -/

section Reader

variable {buf : List ℕ} {n e : ℕ} {r : LebReader}

theorem IsLeb.continued (h : IsLeb buf n) {i : ℕ} (hi : i < n) : cell buf i &&& 0x80 ≠ 0 ↔ i + 1 < n := by
  by_cases hmore : i + 1 < n
  · obtain ⟨hlo, hhi⟩ := h.more i hmore
    exact iff_of_true ((and_0x80_iff _ hhi).mpr hlo) hmore
  · have hlast := h.last
    rw [show n - 1 = i by omega] at hlast
    exact iff_of_false (not_not.mpr (and_0x80_of_lt _ hlast)) hmore

theorem lebLength_ends (h : IsLeb buf n) : Ends (lebLength buf) fun k => k = n := by
  have hlen := h.len
  unfold lebLength
  refine loop_ends (fun k => 0 < k ∧ k ≤ n) (fun k => n - k) ⟨Nat.one_pos, h.pos⟩ (by omega) ?_
  rintro k ⟨hpos, hk⟩
  rw [rd_of_lt (by omega), some_bind]
  refine Ends.pure ?_
  split_ifs with hmore
  · rw [h.continued (by omega)] at hmore
    exact ⟨⟨by omega, by omega⟩, by dsimp only; omega⟩
  · rw [h.continued (by omega)] at hmore
    change k = n
    omega

/-- The number in the first `1 + j` bytes, when the first has `e` bits of it. -/
def lebValue (e : ℕ) (buf : List ℕ) (j : ℕ) : ℕ := cell buf 0 % 2 ^ e + 2 ^ e * seg (2 ^ 7) (sevens buf) 1 j

theorem lebValue_succ (e : ℕ) (buf : List ℕ) (j : ℕ) :
    lebValue e buf (j + 1) = lebValue e buf j + cell buf (1 + j) % 2 ^ 7 * 2 ^ (e + 7 * j) := by
  unfold lebValue
  rw [seg_succ, cell_sevens, pow_add, pow_mul]
  ring

theorem size_lebValue_le (e : ℕ) (buf : List ℕ) (j : ℕ) : (lebValue e buf j).size ≤ e + 7 * j :=
  size_groups_le (Nat.mod_lt _ (Nat.two_pow_pos e)) (seg_lt below_sevens) rfl

/-- The last group has a bit. -/
theorem IsLeb.size_lebValue (h : IsLeb buf n) (hn : 1 < n) : e + 7 * (n - 1) < (lebValue e buf (n - 1)).size + 7 := by
  obtain ⟨k, hk⟩ : ∃ k, n = k + 2 := ⟨n - 2, by omega⟩
  have hlast := h.last
  have htop := h.top hn
  rw [show n - 1 = 1 + k by omega] at hlast htop
  have hgroup : cell (sevens buf) (1 + k) ≠ 0 := by
    rw [cell_sevens, Nat.mod_eq_of_lt hlast]
    exact htop
  have hsize := size_groups (Nat.mod_lt (cell buf 0) (Nat.two_pow_pos e)) (seg_lt (show Below (2 ^ 7) (sevens buf) 1 k from below_sevens))
    hgroup rfl
  rw [show n - 1 = k + 1 by omega, lebValue, seg_succ, ← pow_mul, hsize]
  have := Nat.size_pos.mpr (Nat.pos_of_ne_zero hgroup)
  omega

/-- What the reader's loops keep: the number in the bytes that have been read, in whole digits and in `temp`. After
the last byte its leading zeros may be gone. -/
structure LebReader.Holds (buf : List ℕ) (n e len : ℕ) (r : LebReader) : Prop where
  pos : 0 < r.reader
  le : r.reader ≤ n
  len : r.obDigit.length = len
  packed : Packed digitBits r.obDigit 0 r.dst r.temp r.numBits (lebValue e buf (r.reader - 1)) (30 * r.dst + r.numBits)
  bits : 30 * r.dst + r.numBits = e + 7 * (r.reader - 1) ∨
    r.reader = n ∧ 30 * r.dst + r.numBits = (lebValue e buf (n - 1)).size

theorem LebReader.Holds.take {len : ℕ} (h : IsLeb buf n) (hr : r.Holds buf n e len) (hmore : r.reader < n)
    (hfit : r.numBits ≤ 57) : Ends (r.take buf) fun r' => r'.Holds buf n e len ∧ r'.reader = r.reader + 1 ∧
      r'.numBits = r.numBits + 7 ∧ r'.dst = r.dst ∧ 30 * r'.dst + r'.numBits = e + 7 * (r'.reader - 1) := by
  have hlen := h.len
  have hpos := hr.pos
  have hbits := hr.bits
  have hpush := hr.packed.push (Nat.mod_lt (cell buf r.reader) (show 0 < 2 ^ 7 by norm_num))
  have h64 : r.temp ||| (cell buf r.reader % 2 ^ 7) <<< r.numBits < 2 ^ 64 :=
    lt_of_lt_of_le hpush.temp_lt (Nat.pow_le_pow_right (by norm_num) (by omega))
  have hexact : 30 * r.dst + r.numBits = e + 7 * (r.reader - 1) := by omega
  have hval := lebValue_succ e buf (r.reader - 1)
  rw [Nat.sub_add_cancel hpos, Nat.add_sub_cancel' hpos] at hval
  rw [hexact, ← hval] at hpush
  unfold LebReader.take
  rw [rd_of_lt (by omega), some_bind, and_0x7f, fits_of_lt h64, some_bind]
  have hnew : 30 * r.dst + (r.numBits + 7) = e + 7 * (r.reader + 1 - 1) := by omega
  refine Ends.pure ⟨⟨by dsimp only; omega, hmore, hr.len, ?_, Or.inl hnew⟩, rfl, rfl, rfl, hnew⟩
  dsimp only
  rw [hnew, Nat.add_sub_cancel]
  rwa [show e + 7 * (r.reader - 1) + 7 = e + 7 * r.reader by omega] at hpush

theorem lebReadShort_ends {len : ℕ} (h : IsLeb buf n) (hn : n ≤ 4) (he : e ≤ 7) (hr : r.Holds buf n e len)
    (hbits : r.dst = 0 ∧ r.numBits = e + 7 * (r.reader - 1)) :
    Ends (lebReadShort buf r) fun r' => r'.reader = n ∧ r'.temp = lebValue e buf (n - 1) := by
  have hlen := h.len
  unfold lebReadShort
  refine loop_ends (fun r => r.Holds buf n e len ∧ r.dst = 0 ∧ r.numBits = e + 7 * (r.reader - 1))
    (fun r => n - r.reader) ⟨hr, hbits⟩ (by omega) ?_
  rintro r ⟨hr, hdst, hnum⟩
  have hpos := hr.pos
  have hle := hr.le
  rw [rd_of_lt (by omega), some_bind]
  by_cases hmore : cell buf (r.reader - 1) &&& 0x80 ≠ 0
  · rw [if_pos hmore]
    rw [h.continued (by omega)] at hmore
    refine Ends.bind (hr.take h (by omega) (by omega)) fun r' ⟨hr', hreader, hbits', hdst', _⟩ =>
      Ends.pure ⟨⟨hr', by omega, by omega⟩, by dsimp only; omega⟩
  · rw [if_neg hmore]
    rw [h.continued (by omega)] at hmore
    have hvalue := hr.packed.value
    rw [hdst, seg_zero, Nat.mul_zero, pow_zero, Nat.mul_one, Nat.zero_add, show r.reader = n by omega] at hvalue
    exact Ends.pure ⟨by omega, hvalue⟩

theorem lebRefill_ends {isUnsigned : Bool} {len : ℕ} (h : IsLeb buf n) (hr : r.Holds buf n e len) (hfit : r.numBits ≤ 36) :
    Ends (lebRefill isUnsigned buf r) fun r' => r'.Holds buf n e len ∧ r'.dst = r.dst ∧
      r'.numBits ≤ 36 ∧ (30 ≤ r'.numBits ∨ r'.reader = n) := by
  have hlen := h.len
  unfold lebRefill
  refine loop_ends (fun r' => r'.Holds buf n e len ∧ r'.dst = r.dst ∧ r'.numBits ≤ 36) (fun r' => digitBits - r'.numBits)
    ⟨hr, rfl, hfit⟩ (by omega) ?_
  rintro r' ⟨hr', hdst, hnum⟩
  have hpos := hr'.pos
  have hle := hr'.le
  rw [rd_of_lt (by omega), some_bind]
  by_cases hmore : r'.numBits < digitBits ∧ cell buf (r'.reader - 1) &&& 0x80 ≠ 0
  · rw [if_pos hmore]
    rw [h.continued (by omega)] at hmore
    obtain ⟨hless, hread⟩ := hmore
    refine Ends.bind (hr'.take h (by omega) (by omega)) fun r'' ⟨hr'', hreader, hnum'', hdst'', hexact⟩ => ?_
    rw [rd_of_lt (by omega), some_bind]
    by_cases hlast : isUnsigned = true ∧ cell buf (r''.reader - 1) &&& 0x80 = 0
    · have hn : r''.reader = n := by
        by_contra hne
        have := hr''.le
        exact (h.continued (by omega)).mpr (by omega) hlast.2
      rw [if_pos hlast]
      refine Ends.bind (trimBits_ends hr''.packed.temp_lt) ?_
      rintro _ rfl
      have hp := hr''.packed
      have hsize := h.size_lebValue (e := e) (by omega)
      have hvalue := hp.value
      have hlow := seg_lt hp.below
      rw [hn] at hvalue hexact
      rw [← pow_mul] at hlow
      have htemp : r''.temp ≠ 0 := fun h0 => by
        rw [h0, Nat.zero_mul, Nat.add_zero] at hvalue
        have := Nat.size_le.mpr (hvalue ▸ hlow)
        unfold digitBits at this
        omega
      refine Ends.pure ⟨⟨by dsimp only; omega, hr''.le, hr''.len, ⟨hp.value, hp.below, Nat.lt_size_self _, rfl⟩,
        Or.inr ⟨hn, ?_⟩⟩, by dsimp only; omega, ?_, Or.inr hn⟩
      · dsimp only
        rw [← hvalue, size_add_mul hlow htemp]
      · exact le_trans (Nat.size_le.mpr hp.temp_lt) (by unfold digitBits at hless; omega)
    · rw [if_neg hlast]
      exact Ends.pure ⟨⟨hr'', by omega, by unfold digitBits at hless; omega⟩, by dsimp only; omega⟩
  · rw [if_neg hmore]
    rw [h.continued (by omega)] at hmore
    exact Ends.pure ⟨hr', hdst, hnum, by unfold digitBits at hmore; omega⟩

/-- The loop over the digits ends with the digits of the number. -/
theorem lebReadDigits_ends {isUnsigned : Bool} {len : ℕ} (h : IsLeb buf n) (hn : 1 < n) (hr : r.Holds buf n e len)
    (he : e ≤ 7) (hfit : r.numBits ≤ 36) (hlen : len = (n * 7 + (digitBits - 1)) / digitBits) (hdst : r.dst ≤ len) :
    Ends (lebReadDigits isUnsigned buf len r) fun r' => r'.reader = n ∧ r'.dst ≤ r'.obDigit.length ∧
      Below digitBase r'.obDigit 0 r'.dst ∧ seg digitBase r'.obDigit 0 r'.dst = lebValue e buf (n - 1) ∧
      (0 < r'.dst → cell r'.obDigit (r'.dst - 1) ≠ 0) := by
  have hsize := h.size_lebValue (e := e) hn
  have hsize' := size_lebValue_le e buf (n - 1)
  unfold lebReadDigits
  refine loop_ends (fun r => r.Holds buf n e len ∧ r.numBits ≤ 36 ∧ r.dst ≤ len) (fun r => len + 1 - r.dst)
    ⟨hr, hfit, hdst⟩ (by omega) ?_
  rintro r ⟨hr, hfit, hdst⟩
  refine Ends.bind (lebRefill_ends h hr hfit) fun r' ⟨hr', hdst', hfit', hend⟩ => ?_
  have hp := hr'.packed
  have hle := hr'.le
  have hrlen := hr'.len
  have hbits := hr'.bits
  have hroom : 0 < r'.numBits → r'.dst < len := fun h0 => by
    unfold digitBits at hlen
    omega
  by_cases h30 : digitBits ≤ r'.numBits
  · have hd := hroom (lt_of_lt_of_le (by norm_num) h30)
    have hpop := hp.pop h30 (by omega)
    rw [Nat.zero_add] at hpop
    rw [if_pos h30, wr_of_lt (by omega), some_bind, and_digitMask]
    refine Ends.pure ⟨⟨⟨hr'.pos, hle, by simpa using hrlen, ?_, ?_⟩, by dsimp only; omega, hd⟩, by dsimp only; omega⟩
    · dsimp only
      rw [show 30 * (r'.dst + 1) + (r'.numBits - digitBits) = 30 * r'.dst + r'.numBits by unfold digitBits at *; omega]
      exact hpop
    · dsimp only
      rw [show 30 * (r'.dst + 1) + (r'.numBits - digitBits) = 30 * r'.dst + r'.numBits by unfold digitBits at *; omega]
      exact hbits
  · have hlast : r'.reader = n := hend.resolve_left (by unfold digitBits at h30; omega)
    rw [hlast] at hp hbits
    rw [if_neg h30]
    have hclean : r'.temp = 0 → seg digitBase r'.obDigit 0 r'.dst = lebValue e buf (n - 1) ∧
        (0 < r'.dst → cell r'.obDigit (r'.dst - 1) ≠ 0) := fun h0 => by
      have hvalue := hp.value
      rw [h0, Nat.zero_mul, Nat.add_zero] at hvalue
      refine ⟨hvalue, fun hpos => ?_⟩
      obtain ⟨k, hk⟩ : ∃ k, r'.dst = k + 1 := ⟨r'.dst - 1, by omega⟩
      have hbelow := hp.below
      rw [hk] at hbelow hvalue ⊢
      rw [Nat.add_sub_cancel, last_ne_zero_iff hbelow, ← two_pow_digitBits, hvalue]
      exact Nat.lt_size.mp (by unfold digitBits; omega)
    by_cases h0 : r'.numBits = 0
    · rw [if_pos h0]
      rw [h0] at hp
      have htemp : r'.temp = 0 := by simpa using hp.temp_lt
      obtain ⟨hval, htop⟩ := hclean htemp
      by_cases hd : r'.dst = 0
      · rw [if_pos hd]
        rw [hd, seg_zero] at hval
        exact Ends.pure ⟨hlast, by dsimp only; omega, fun i hi => by dsimp only at hi; omega,
          by dsimp only; rw [hd, seg_zero, hval], fun h => by dsimp only at h; omega⟩
      · rw [if_neg hd]
        exact Ends.pure ⟨hlast, by omega, hp.below, hval, htop⟩
    · have hd := hroom (by omega)
      have htemp : r'.temp < digitBase :=
        lt_of_lt_of_le hp.temp_lt (Nat.pow_le_pow_right (by norm_num) (by unfold digitBits at h30; omega))
      have hlast' := hp.last (by omega) (by omega)
      rw [Nat.zero_add] at hlast'
      rw [if_neg h0, wr_of_lt (by omega), some_bind, Nat.mod_eq_of_lt (by unfold digitBase at htemp; omega)]
      by_cases ht : r'.temp = 0
      · obtain ⟨hval, htop⟩ := hclean ht
        rw [if_neg (not_not.mpr ht)]
        refine Ends.pure ⟨hlast, by simp; omega, hp.below.set_out (by omega), ?_, fun hpos => ?_⟩
        · dsimp only
          rw [seg_set_out (by omega), hval]
        · dsimp only at hpos ⊢
          rw [cell_set_of_ne (by omega)]
          exact htop hpos
      · rw [if_pos ht]
        refine Ends.pure ⟨hlast, by simp; omega, hlast'.2, hlast'.1, fun _ => ?_⟩
        dsimp only
        rw [Nat.add_sub_cancel, cell_set_self (by omega)]
        exact ht

/-- The reader before its first loop. -/
theorem LebReader.Holds.first (h : IsLeb buf n) (obDigit : List ℕ) :
    LebReader.Holds buf n e obDigit.length ⟨cell buf 0 % 2 ^ e, e, 1, 0, obDigit⟩ := by
  have hval : lebValue e buf 0 = cell buf 0 % 2 ^ e := by rw [lebValue, seg_zero, Nat.mul_zero, Nat.add_zero]
  refine ⟨Nat.one_pos, h.pos, rfl, ?_, Or.inl (by simp)⟩
  dsimp only
  rw [Nat.sub_self, hval]
  exact ⟨by simp, fun i hi => by omega, Nat.mod_lt _ (Nat.two_pow_pos e), by simp⟩

theorem IsLeb.first_lt (h : IsLeb buf n) : cell buf 0 < 2 ^ 8 := by
  have hpos := h.pos
  by_cases hn : n = 1
  · have := h.last
    rw [hn, Nat.sub_self] at this
    omega
  · exact (h.more 0 (by omega)).2

/-- The digits of an integer that takes more than four bytes. -/
theorem lebReadDigits_object {isUnsigned : Bool} (h : IsLeb buf n) (he : e ≤ 7) (hn : 4 < n) :
    Ends (lebReadDigits isUnsigned buf ((n * 7 + (digitBits - 1)) / digitBits)
        ⟨cell buf 0 % 2 ^ e, e, 1, 0, (deeIntAlloc ((n * 7 + (digitBits - 1)) / digitBits)).obDigit⟩) fun r =>
      r.reader = n ∧
      (DeeInt.Canonical ⟨r.dst, r.obDigit⟩ ∧ DeeInt.toInt ⟨r.dst, r.obDigit⟩ = lebValue e buf (n - 1)) ∧
      DeeInt.Canonical ⟨-r.dst, r.obDigit⟩ ∧ DeeInt.toInt ⟨-r.dst, r.obDigit⟩ = -(lebValue e buf (n - 1) : ℤ) := by
  have hfirst : LebReader.Holds buf n e _ ⟨_, _, _, _, (deeIntAlloc ((n * 7 + (digitBits - 1)) / digitBits)).obDigit⟩ :=
    LebReader.Holds.first h _
  rw [deeIntAlloc_obDigit_length] at hfirst
  refine (lebReadDigits_ends h (by omega) hfirst he (by dsimp only; omega) rfl (Nat.zero_le _)).mono ?_
  rintro ⟨temp, nb, reader, dst, z⟩ ⟨hreader, hlen, hbelow, hval, htop⟩
  dsimp only at hreader hlen hbelow hval htop ⊢
  obtain ⟨k, rfl⟩ : ∃ k, dst = k + 1 := ⟨dst - 1, by
    have hsize := h.size_lebValue (e := e) (by omega)
    rcases Nat.eq_zero_or_pos dst with rfl | hpos
    · rw [← hval, seg_zero, Nat.size_zero] at hsize
      omega
    · omega⟩
  have hp := digits_canonical false hlen hbelow (htop (by omega))
  have hm := digits_canonical true hlen hbelow (htop (by omega))
  rw [hval] at hp hm
  exact ⟨hreader, hp, hm⟩

/-- `DeeInt_NewUleb` of the bytes of a number. -/
theorem deeIntNewUleb_ends (h : IsLeb buf n) : Ends (deeIntNewUleb buf) fun r =>
    r.1.Canonical ∧ r.1.toInt = lebValue 7 buf (n - 1) ∧ r.2 = n := by
  have hpos := h.pos
  have hlen := h.len
  unfold deeIntNewUleb
  refine Ends.bind (lebLength_ends h) fun k hk => ?_
  rw [hk, rd_of_lt (by omega), some_bind, and_0x7f]
  by_cases hshort : (n * 7 + (digitBits - 1)) / digitBits = 1
  · have hn : n ≤ 4 := by
      unfold digitBits at hshort
      omega
    rw [if_pos hshort]
    refine Ends.bind (lebReadShort_ends h hn le_rfl (LebReader.Holds.first h []) ⟨rfl, rfl⟩) fun r ⟨hreader, htemp⟩ => ?_
    rw [htemp]
    refine Ends.bind (newUnsigned_ends _) fun z hz => Ends.pure ⟨hz.1, hz.2, hreader⟩
  · rw [if_neg hshort]
    refine Ends.bind (lebReadDigits_object h le_rfl (by unfold digitBits at hshort; omega)) fun r ⟨hreader, hz, _⟩ =>
      Ends.pure ⟨hz.1, hz.2, hreader⟩

/-- `DeeInt_NewSleb`: bit 6 of the first byte is the sign. -/
theorem deeIntNewSleb_ends (h : IsLeb buf n) : Ends (deeIntNewSleb buf) fun r =>
    r.1.Canonical ∧ r.1.toInt = (if cell buf 0 / 2 ^ 6 % 2 = 1 then -(lebValue 6 buf (n - 1) : ℤ) else lebValue 6 buf (n - 1)) ∧
      r.2 = n := by
  have hpos := h.pos
  have hlen := h.len
  have hsign := and_0x40_iff _ h.first_lt
  unfold deeIntNewSleb
  refine Ends.bind (lebLength_ends h) fun k hk => ?_
  rw [hk, rd_of_lt (by omega), some_bind, Nat.and_two_pow_sub_one_eq_mod _ 6]
  by_cases hshort : (n * 7 + (digitBits - 1)) / digitBits = 1
  · have hn : n ≤ 4 := by
      unfold digitBits at hshort
      omega
    rw [if_pos hshort]
    refine Ends.bind (lebReadShort_ends h hn (by norm_num) (LebReader.Holds.first h []) ⟨rfl, rfl⟩)
      fun r ⟨hreader, htemp⟩ => ?_
    rw [htemp]
    by_cases hs : cell buf 0 &&& 0x40 ≠ 0
    · rw [if_pos hs, if_pos (hsign.mp hs)]
      exact Ends.bind (newSigned_ends _) fun z hz => Ends.pure ⟨hz.1, hz.2, hreader⟩
    · rw [if_neg hs, if_neg (mt hsign.mpr hs)]
      exact Ends.bind (newUnsigned_ends _) fun z hz => Ends.pure ⟨hz.1, hz.2, hreader⟩
  · rw [if_neg hshort]
    refine Ends.bind (lebReadDigits_object h (by norm_num) (by unfold digitBits at hshort; omega))
      fun r ⟨hreader, hp, hm⟩ => Ends.pure ⟨?_, ?_, hreader⟩
    · dsimp only
      split_ifs
      · exact hm.1
      · exact hp.1
    · dsimp only
      by_cases hs : cell buf 0 &&& 0x40 ≠ 0
      · rw [if_pos hs, if_pos (hsign.mp hs)]
        exact hm.2
      · rw [if_neg hs, if_neg (mt hsign.mpr hs)]
        exact hp.2

end Reader

/-! ### Round trips -/

/-- `DeeInt_GetSleb` keeps to `DeeInt_GetSlebMaxSize`, and `DeeInt_NewSleb` reads its bytes, and no more, back. -/
def SlebRight (v : DeeInt) (writer rest : List ℕ) : Prop :=
  ∃ n out, deeIntGetSleb v writer = some (n, out) ∧ n ≤ deeIntGetLebMaxSize v ∧
    ∃ z, deeIntNewSleb (out.take n ++ rest) = some (z, n) ∧ z.Canonical ∧ z.toInt = v.toInt

/-- `DeeInt_GetUleb` keeps to `DeeInt_GetUlebMaxSize`, and `DeeInt_NewUleb` reads its bytes, and no more, back. -/
def UlebRight (v : DeeInt) (writer rest : List ℕ) : Prop :=
  ∃ n out, deeIntGetUleb v writer = some (n, out) ∧ n ≤ deeIntGetLebMaxSize v ∧
    ∃ z, deeIntNewUleb (out.take n ++ rest) = some (z, n) ∧ z.Canonical ∧ z.toInt = v.toInt

section RoundTrip

variable {out rest : List ℕ} {n : ℕ}

theorem cell_take_append (hn : n ≤ out.length) {i : ℕ} (hi : i < n) : cell (out.take n ++ rest) i = cell out i := by
  have hlen : (out.take n).length = n := by simpa using hn
  simp [cell, List.getElem?_append_left (hlen.symm ▸ hi), hi]

theorem IsLeb.take_append (h : IsLeb out n) (rest : List ℕ) : IsLeb (out.take n ++ rest) n := by
  have hpos := h.pos
  have hcell : ∀ i < n, cell (out.take n ++ rest) i = cell out i := fun i hi => cell_take_append h.len hi
  refine ⟨hpos, by simp [h.len], fun i hi => ?_, ?_, fun hn => ?_⟩
  · rw [hcell i (by omega)]
    exact h.more i hi
  · rw [hcell _ (by omega)]
    exact h.last
  · rw [hcell _ (by omega)]
    exact h.top hn

theorem IsLeb.lebValue_take_append (h : IsLeb out n) (rest : List ℕ) (e : ℕ) :
    lebValue e (out.take n ++ rest) (n - 1) = lebValue e out (n - 1) := by
  have hpos := h.pos
  unfold lebValue
  rw [cell_take_append h.len hpos, seg_congr fun i hi => ?_]
  rw [cell_sevens, cell_sevens, cell_take_append h.len (by omega)]

end RoundTrip

theorem slebRight_iff {v : DeeInt} {writer rest : List ℕ} (hv : v.Canonical)
    (hlen : deeIntGetLebMaxSize v ≤ writer.length) : SlebRight v writer rest ↔ v.toInt < 64 := by
  -- the decoder reads `r` out of the bytes of `v`
  have key : ∃ n out, deeIntGetSleb v writer = some (n, out) ∧ n ≤ deeIntGetLebMaxSize v ∧
      ∃ z : DeeInt, deeIntNewSleb (out.take n ++ rest) = some (z, n) ∧ z.Canonical ∧ (z.toInt = v.toInt ↔ v.toInt < 64) := by
    by_cases hneg : v.obSize < 0
    · obtain ⟨⟨n, out⟩, hrun, hleb, hsize, hsign, hval⟩ := deeIntGetSleb_neg hv hneg hlen
      dsimp only at hleb hsize hsign hval
      obtain ⟨⟨z, k⟩, hdec, hz, hzval, hk⟩ := deeIntNewSleb_ends (hleb.take_append rest)
      dsimp only at hz hzval hk
      subst hk
      have hlt := hv.toInt_neg_iff.mpr hneg
      rw [hleb.lebValue_take_append, cell_take_append hleb.len hleb.pos, if_pos hsign, lebValue, hval,
        ← toInt_of_neg hneg] at hzval
      exact ⟨k, out, hrun, hsize, z, hdec, hz, iff_of_true hzval (by omega)⟩
    · obtain ⟨⟨n, out⟩, hrun, hleb, hsize, hval⟩ := lebWrite_pos hv hlen
      dsimp only at hleb hsize hval
      obtain ⟨⟨z, k⟩, hdec, hz, hzval, hk⟩ := deeIntNewSleb_ends (hleb.take_append rest)
      dsimp only at hz hzval hk
      subst hk
      refine ⟨k, out, by unfold deeIntGetSleb; dsimp only; rw [if_neg hneg]; exact hrun, hsize, z, hdec, hz, ?_⟩
      rw [hleb.lebValue_take_append, cell_take_append hleb.len hleb.pos, lebValue] at hzval
      rw [hzval, toInt_of_nonneg (by omega), ← hval, show k = k - 1 + 1 by have := hleb.pos; omega, seg_succ_front, cell_sevens,
        Nat.add_sub_cancel]
      generalize seg (2 ^ 7) (sevens out) (0 + 1) (k - 1) = S
      split_ifs <;> omega
  obtain ⟨n, out, hrun, hsize, z, hdec, hz, hiff⟩ := key
  rw [← hiff]
  constructor
  · rintro ⟨n', out', hrun', -, z', hdec', -, hval⟩
    obtain ⟨rfl, rfl⟩ := Prod.mk.inj (Option.some.inj (hrun.symm.trans hrun'))
    obtain ⟨rfl, -⟩ := Prod.mk.inj (Option.some.inj (hdec.symm.trans hdec'))
    exact hval
  · exact fun hval => ⟨n, out, hrun, hsize, z, hdec, hz, hval⟩

theorem ulebRight_of_nonneg {v : DeeInt} {writer rest : List ℕ} (hv : v.Canonical) (hpos : 0 ≤ v.toInt)
    (hlen : deeIntGetLebMaxSize v ≤ writer.length) : UlebRight v writer rest := by
  have hsign : 0 ≤ v.obSize := by
    by_contra hneg
    have := hv.toInt_neg_iff.mpr (by omega)
    omega
  obtain ⟨⟨n, out⟩, hrun, hleb, hsize, hval⟩ := lebWrite_pos hv hlen
  dsimp only at hleb hsize hval
  obtain ⟨⟨z, k⟩, hdec, hz, hzval, hk⟩ := deeIntNewUleb_ends (hleb.take_append rest)
  dsimp only at hz hzval hk
  subst hk
  refine ⟨k, out, by unfold deeIntGetUleb; rw [assert_of hsign]; exact hrun, hsize, z, hdec, hz, ?_⟩
  have hall : lebValue 7 out (k - 1) = v.mag := by
    rw [← hval, show k = k - 1 + 1 by have := hleb.pos; omega, seg_succ_front, cell_sevens, Nat.add_sub_cancel]
    rfl
  rw [hzval, hleb.lebValue_take_append, hall, toInt_of_nonneg hsign]

/-- The unsigned format round-trips on every integer that is not negative; the signed format on the integers below
64 and on no other, as the encoder gives a positive first byte seven bits and the decoder takes the last of them
for the sign. -/
theorem int_leb_iff (v : DeeInt) (writer rest : List ℕ) (hv : v.Canonical)
    (hlen : deeIntGetLebMaxSize v ≤ writer.length) :
    (SlebRight v writer rest ↔ v.toInt < 64) ∧ (0 ≤ v.toInt → UlebRight v writer rest) :=
  ⟨slebRight_iff hv hlen, fun hpos => ulebRight_of_nonneg hv hpos hlen⟩

theorem int_leb_iff_minus_200 :
    SlebRight ⟨-1, [200]⟩ [0, 0, 0, 0, 0, 0, 0, 0] [] ∧ UlebRight ⟨1, [200]⟩ [0, 0, 0, 0, 0, 0, 0, 0] [] :=
  ⟨(int_leb_iff ⟨-1, [200]⟩ [0, 0, 0, 0, 0, 0, 0, 0] [] (by decide) (by decide)).1.mpr (by decide),
    (int_leb_iff ⟨1, [200]⟩ [0, 0, 0, 0, 0, 0, 0, 0] [] (by decide) (by decide)).2 (by decide)⟩

/-- 64 is written as the single byte `0x40`, which reads as zero with the sign set. -/
theorem sleb_64_fails : ¬SlebRight ⟨1, [64]⟩ [0, 0, 0, 0, 0, 0, 0, 0] [] := by
  have hwrite : deeIntGetSleb ⟨1, [64]⟩ [0, 0, 0, 0, 0, 0, 0, 0] = some (1, [0x40, 0, 0, 0, 0, 0, 0, 0]) := by
    decide +kernel
  have hread : deeIntNewSleb [0x40] = some (⟨0, [0]⟩, 1) := by decide +kernel
  rintro ⟨n, out, hrun, -, z, hdec, -, hval⟩
  obtain ⟨rfl, rfl⟩ := Prod.mk.inj (Option.some.inj (hwrite.symm.trans hrun))
  obtain ⟨rfl, -⟩ := Prod.mk.inj (Option.some.inj (hread.symm.trans hdec))
  exact absurd hval (by decide)

end Deemon.Int
