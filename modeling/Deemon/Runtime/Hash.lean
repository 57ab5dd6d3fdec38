import Deemon.Lib.Fields
import Deemon.Unicode.Utf8

/-!
# Hashing

The string hashes take one byte from each character (`packw`, `packl`), in blocks of as many characters as `Dee_hash_t`
has bytes and a tail. There is one implementation for hashes of 32 bits and one for 64 bits; the text comes as single
bytes, 16-bit or 32-bit units, or UTF-8, as it is or in lower case.
-/

namespace Deemon.Runtime

open Deemon.Run Deemon.Fields Deemon.Radix Deemon.Unicode

/-- What the hashes depend on besides the text: `__BYTE_ORDER__`, whether `char` is signed, and the field `ut_lower`
of the characters in `unicode_db.c`. -/
structure HashEnv where
  bigEndian : Bool
  charSigned : Bool
  utLower : ℕ → ℤ

/-- `UNICODE_COUNT`. -/
abbrev unicodeCount : ℕ := 0xe01f0

variable (env : HashEnv)

/-- `DeeUni_ToLower`; the default descriptor of all other characters adds 0. -/
def HashEnv.deeUniToLower (ch : ℕ) : ℕ := uint 32 (ch + if ch < unicodeCount then env.utLower ch else 0)

/-- A `char` as the argument of `DeeUni_ToLower`. -/
def HashEnv.charArg (b : ℕ) : ℕ := if env.charSigned then uint 32 (sint 8 b) else b

/-- `packw`. -/
def packw (x : ℕ) : ℕ := (x &&& 0xff) ^^^ ((x &&& 0xff00) >>> 8)

/-- `packl`. -/
def packl (x : ℕ) : ℕ :=
  (x &&& 0xff) ^^^ ((x &&& 0xff00) >>> 8) ^^^ ((x &&& 0xff0000) >>> 16) ^^^ ((x &&& 0xff000000) >>> 24)

/-- A block of `n` bytes, ordered by `ESEL`. -/
def packBlock (w n : ℕ) (f : ℕ → ℕ) : BitVec w :=
  (List.range n).foldl
    (fun k j => k ||| BitVec.ofNat w (f j) <<< (if env.bigEndian then 8 * (n - 1 - j) else 8 * j)) 0

/-- The bytes of a tail, the last one first. -/
def xorTail (w n : ℕ) (f : ℕ → ℕ) (h : BitVec w) : BitVec w :=
  (List.range n).foldr (fun j h => h ^^^ BitVec.ofNat w (f j) <<< (8 * j)) h

/-- The byte at `i` in a full block of `Dee_HashCasePtr`: `b.part[i]` or `k.ch[i]`. -/
def HashEnv.lowerPart (ptr : List ℕ) : List ℕ := ptr.map fun b => env.deeUniToLower (env.charArg b) % 2 ^ 8

/-! ### The implementations -/

/-- One of the two implementations. -/
structure HashImpl where
  /-- The width of `Dee_hash_t`. -/
  bits : ℕ
  /-- The number of characters in a full block. -/
  size : ℕ
  /-- The round for a full block. -/
  mix : BitVec bits → BitVec bits → BitVec bits
  /-- The steps behind the loop, for a text of `n` characters and the `t` last ones. -/
  finish : BitVec bits → (n t : ℕ) → (ℕ → ℕ) → BitVec bits
  /-- What the tail of `Dee_HashCasePtr` takes from a character in lower case. -/
  caseByte : ℕ → ℕ
  /-- What the tail of `Dee_HashCase2Byte` takes from a character in lower case. -/
  casePack : ℕ → ℕ

namespace Hash64

/-- `m`. -/
def m : BitVec 64 := 0xc6a4a7935bd1e995

def mix (h k : BitVec 64) : BitVec 64 :=
  let k := k * m
  let k := k ^^^ k >>> 47
  let k := k * m
  (h ^^^ k) * m

def finish (h : BitVec 64) (_ t : ℕ) (tail : ℕ → ℕ) : BitVec 64 :=
  let h := if t = 0 then h else xorTail 64 t tail h * m
  let h := h ^^^ h >>> 47
  let h := h * m
  h ^^^ h >>> 47

end Hash64

namespace Hash32

/-- `c1`. -/
def c1 : BitVec 32 := 0xcc9e2d51

/-- `c2`. -/
def c2 : BitVec 32 := 0x1b873593

/-- `ROT32`. -/
def rot32 (x : BitVec 32) (y : ℕ) : BitVec 32 := x <<< y ||| x >>> (32 - y)

/-- The steps that both a block and the tail go through. -/
def scramble (k : BitVec 32) : BitVec 32 := rot32 (k * c1) 15 * c2

def mix (hash k : BitVec 32) : BitVec 32 := rot32 (hash ^^^ scramble k) 13 * 5 + 0xe6546b64

def finish (hash : BitVec 32) (n t : ℕ) (tail : ℕ → ℕ) : BitVec 32 :=
  let hash := if t = 0 then hash else hash ^^^ scramble (xorTail 32 t tail 0)
  let hash := hash ^^^ BitVec.ofNat 32 n
  let hash := hash ^^^ hash >>> 16
  let hash := hash * 0x85ebca6b
  let hash := hash ^^^ hash >>> 13
  let hash := hash * 0xc2b2ae35
  hash ^^^ hash >>> 16

end Hash32

/-- `_Dee_HashSelect(32, 64) == 64`. -/
def hash64 : HashImpl := ⟨64, 8, Hash64.mix, Hash64.finish, id, packl⟩

/-- `_Dee_HashSelect(32, 64) == 32`. -/
def hash32 : HashImpl := ⟨32, 4, Hash32.mix, Hash32.finish, (· % 2 ^ 8), packw⟩

/-! ### The hash functions -/

namespace HashImpl

variable (impl : HashImpl) (ptr : List ℕ)

/-- The loop over the first `len` blocks. -/
def blocks (len : ℕ) (block : ℕ → BitVec impl.bits) : BitVec impl.bits :=
  (List.range len).foldl (fun h i => impl.mix h (block i)) 0

/-- A text of `n` characters with the given blocks, and bytes in the tail. -/
def hash (n : ℕ) (block : ℕ → BitVec impl.bits) (tail : ℕ → ℕ) : BitVec impl.bits :=
  impl.finish (impl.blocks (n / impl.size) block) n (n % impl.size) fun j => tail (impl.size * (n / impl.size) + j)

/-- The block at `i` of the bytes `f`, ordered by `ESEL`. -/
def pack (f : ℕ → ℕ) (i : ℕ) : BitVec impl.bits :=
  packBlock env impl.bits impl.size fun j => f (impl.size * i + j)

/-- `UNALIGNED_GETLE32` or `UNALIGNED_GETLE64` of the block at `i`. -/
def load (i : ℕ) : BitVec impl.bits := BitVec.ofNat impl.bits (seg 256 ptr (impl.size * i) impl.size)

/-- `Dee_HashPtr`. -/
def deeHashPtr : BitVec impl.bits := impl.hash ptr.length (impl.load ptr) (cell ptr)

/-- `Dee_Hash2Byte`. -/
def deeHash2Byte : BitVec impl.bits :=
  impl.hash ptr.length (impl.pack env fun j => packw (cell ptr j)) fun j => packw (cell ptr j)

/-- `Dee_Hash4Byte`. -/
def deeHash4Byte : BitVec impl.bits :=
  impl.hash ptr.length (impl.pack env fun j => packl (cell ptr j)) fun j => packl (cell ptr j)

/-- `Dee_HashCasePtr`. -/
def deeHashCasePtr : BitVec impl.bits :=
  impl.hash ptr.length (impl.load (env.lowerPart ptr)) fun j => impl.caseByte (env.deeUniToLower (cell ptr j))

/-- `Dee_HashCase2Byte`. -/
def deeHashCase2Byte : BitVec impl.bits :=
  impl.hash ptr.length (impl.pack env fun j => packl (env.deeUniToLower (cell ptr j))) fun j =>
    impl.casePack (env.deeUniToLower (cell ptr j))

/-- `Dee_HashCase4Byte`. -/
def deeHashCase4Byte : BitVec impl.bits :=
  impl.hash ptr.length (impl.pack env fun j => packl (env.deeUniToLower (cell ptr j))) fun j =>
    packl (env.deeUniToLower (cell ptr j))

/-- The state of the loop of the UTF-8 hashes: `ptr`, `n_chars` without those in `block`, `block` and `hash`. -/
structure Utf8State (bits : ℕ) where
  ptr : ℕ
  nChars : ℕ
  block : List ℕ
  hash : BitVec bits

/-- One character of the UTF-8 hashes; a block ends with its last character. -/
def hashUtf8Step (lower : ℕ → ℕ) (s : Utf8State impl.bits) : Option (Step (Utf8State impl.bits) (BitVec impl.bits)) :=
  if ptr.length ≤ s.ptr then
    some (.done (impl.finish s.hash (s.nChars + s.block.length) s.block.length fun j => packl (cell s.block j)))
  else do
    let (ch, next) ← readUtf8N ptr s.ptr ptr.length
    let block := s.block ++ [lower ch]
    if block.length = impl.size then
      let k := packBlock env impl.bits impl.size fun j => packl (cell block j)
      some (.next ⟨next, s.nChars + impl.size, [], impl.mix s.hash k⟩)
    else some (.next ⟨next, s.nChars, block, s.hash⟩)

/-- The loop of the UTF-8 hashes. -/
def hashUtf8 (lower : ℕ → ℕ) : Option (BitVec impl.bits) :=
  loop (impl.hashUtf8Step env ptr lower) (ptr.length + 1) ⟨0, 0, [], 0⟩

/-- `Dee_HashUtf8`. -/
def deeHashUtf8 : Option (BitVec impl.bits) := impl.hashUtf8 env ptr id

/-- `Dee_HashCaseUtf8`. -/
def deeHashCaseUtf8 : Option (BitVec impl.bits) := impl.hashUtf8 env ptr env.deeUniToLower

end HashImpl

end Deemon.Runtime
