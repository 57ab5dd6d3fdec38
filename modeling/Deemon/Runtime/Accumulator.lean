import Deemon.Int.TryGet
import Deemon.Unicode.BytesPrinter
import Deemon.Unicode.PrinterRuns

/-!
# The accumulator

`Dee_accu` adds up items like `operator +`, with a printer for strings and for bytes, and for integers with a machine
integer as long as the sum fits one. Where `Dee_ssize_t` has 32 bits there is a mode for 64-bit sums too. Here all items
of an accumulator are of one of these types; others, and items of different types, are left out.
-/

namespace Deemon.Runtime

open Deemon.Run Deemon.Int Deemon.Unicode

/-! ### The code -/

/-- Integer objects of a host, with the functions that the accumulator calls and what they do. -/
structure IntObjects where
  Obj : Type
  value : Obj → ℤ
  Valid : Obj → Prop
  /-- `Dee_ACCU_INT64_DEFINED`: the host has a `Dee_ssize_t` of 32 bits. -/
  int64Defined : Bool
  /-- `DeeInt_TryAsInt32`. -/
  tryAsInt32 : Obj → Option (Option ℤ)
  /-- `DeeInt_TryAsInt64`. -/
  tryAsInt64 : Obj → Option (Option ℤ)
  /-- `DeeInt_NewSSize`. -/
  newSSize : ℤ → Option Obj
  /-- `DeeInt_NewInt64`. -/
  newInt64 : ℤ → Option Obj
  /-- `int_add`. -/
  intAdd : Obj → Obj → Option Obj
  tryAsInt32_eq : ∀ {x}, Valid x → tryAsInt32 x = some (signedOf 32 (value x))
  tryAsInt64_eq : ∀ {x}, Valid x → tryAsInt64 x = some (signedOf 64 (value x))
  newSSize_ends : ∀ {n}, -2 ^ (if int64Defined then 31 else 63) ≤ n → n < 2 ^ (if int64Defined then 31 else 63) →
    Ends (newSSize n) fun z => Valid z ∧ value z = n
  newInt64_ends : ∀ {n}, -2 ^ 63 ≤ n → n < 2 ^ 63 → Ends (newInt64 n) fun z => Valid z ∧ value z = n
  intAdd_ends : ∀ {x y}, Valid x → Valid y → Ends (intAdd x y) fun z => Valid z ∧ value z = value x + value y

/-- The integers of hosts with 64-bit pointers. -/
def deeIntObjects : IntObjects where
  Obj := DeeInt
  value := DeeInt.toInt
  Valid := DeeInt.Canonical
  int64Defined := false
  tryAsInt32 := deeIntTryAsInt32
  tryAsInt64 := deeIntTryAsInt64
  newSSize := deeIntNewInt64
  newInt64 := deeIntNewInt64
  intAdd := Int.intAdd
  tryAsInt32_eq := Int.tryAsInt32_eq
  tryAsInt64_eq := Int.tryAsInt64_eq
  newSSize_ends := fun _ _ => newSigned_ends _
  newInt64_ends := fun _ _ => newSigned_ends _
  intAdd_ends := Int.intAdd_ends

/-- An item. -/
inductive Item (I : IntObjects) where
  | int (x : I.Obj)
  | string (s : DeeString)
  | bytes (data : List ℕ)

/-- `struct Dee_accu`: its `Dee_ACCU_*` mode and the value in that mode. -/
inductive Accu (I : IntObjects) where
  | first
  | second (obj : Item I)
  | object (obj : I.Obj)
  | string (printer : UnicodePrinter)
  | bytes (printer : BytesPrinter)
  | int (value : ℤ)
  | int64 (value : ℤ)

variable {I : IntObjects}

/-- `OVERFLOW_SADD`: the sum of two integers, if it fits `w` bits. -/
def sadd (w : ℕ) (a b : ℤ) : Option ℤ := signedOf w (a + b)

/-- From `handle_object`: the sum of two objects is the new value. -/
def addObjects (prev item : I.Obj) : Option (Accu I) := (I.intAdd prev item).map .object

/-- `accu_second` for integers. -/
def accuSecondInt (first second : I.Obj) : Option (Accu I) := do
  match ← I.tryAsInt64 first with
  | none => addObjects first second
  | some intval1 =>
    match ← I.tryAsInt64 second with
    | none => addObjects first second
    | some intval2 =>
      match sadd 64 intval1 intval2 with
      | none => addObjects first second
      | some sum =>
        if I.int64Defined ∧ ¬ (-2 ^ 31 ≤ sum ∧ sum ≤ 2 ^ 31 - 1) then some (.int64 sum) else some (.int sum)

/-- The case of `Dee_accu_add` that adds in 64 bits, in the mode `mode`. `new` makes an object from a sum. -/
def accuAddInt64 (mode : ℤ → Accu I) (new : ℤ → Option I.Obj) (value : ℤ) (item : I.Obj) : Option (Accu I) := do
  let convertToObject := new value >>= fun prev => addObjects prev item
  match ← I.tryAsInt64 item with
  | none => convertToObject
  | some addend =>
    match sadd 64 value addend with
    | none => convertToObject
    | some result => some (mode result)

/-- The case of `Dee_accu_add` that adds in 32 bits. -/
def accuAddInt32 (value : ℤ) (item : I.Obj) : Option (Accu I) := do
  let convertToObject := I.newSSize value >>= fun prev => addObjects prev item
  match ← I.tryAsInt32 item with
  | none =>
    match ← I.tryAsInt64 item with
    | none => convertToObject
    | some addend64 =>
      match sadd 64 addend64 value with
      | none => convertToObject
      | some sum => some (.int64 sum)
  | some addend =>
    match sadd 32 value addend with
    | none => some (.int64 (value + addend))
    | some result => some (.int result)

/-- `Dee_unicode_printer_printstring`, and what `Dee_unicode_printer_printobject` does for a string. -/
def printString (mem : Memory) (self : UnicodePrinter) (string : DeeString) : Except Fault UnicodePrinter :=
  match string.uWidth with
  | .byte1 => self.print8 mem string.uData
  | .byte2 => self.print16 mem string.uData
  | .byte4 => self.print32 mem string.uData

/-- `Dee_accu_add`. -/
def accuAdd (mem : Memory) : Accu I → Item I → Except Fault (Accu I)
  | .first, item => .ok (.second item)
  | .second (.string first), .string second => do
    let printer ← printString mem UnicodePrinter.init first
    let printer ← printString mem printer second
    .ok (.string printer)
  | .second (.bytes first), .bytes second => do
    let printer ← BytesPrinter.init.append mem first
    let printer ← printer.append mem second
    .ok (.bytes printer)
  | .second (.int first), .int second => orBroken (accuSecondInt first second)
  | .string printer, .string item => do
    let printer ← printString mem printer item
    .ok (.string printer)
  | .bytes printer, .bytes item => do
    let printer ← printer.append mem item
    .ok (.bytes printer)
  | .int value, .int item =>
    orBroken (if I.int64Defined then accuAddInt32 value item else accuAddInt64 .int I.newInt64 value item)
  | .int64 value, .int item => orBroken (accuAddInt64 .int64 I.newInt64 value item)
  | .object first, .int item => orBroken (addObjects first item)
  -- an item of another type
  | _, _ => .error .broken

/-- `Dee_accu_pack`, with `none` for `ITER_DONE`. -/
def accuPack (mem : Memory) : Accu I → Except Fault (Option (Item I))
  | .first => .ok none
  | .second obj => .ok (some obj)
  | .object obj => .ok (some (.int obj))
  | .string printer => do
    let string ← printer.pack mem
    .ok (some (.string string))
  | .bytes printer => .ok (some (.bytes (printer.pack mem)))
  | .int value => do
    let obj ← orBroken (I.newSSize value)
    .ok (some (.int obj))
  | .int64 value => do
    let obj ← orBroken (I.newInt64 value)
    .ok (some (.int obj))

/-- The items are added one by one. -/
def accuAddAll (mem : Memory) (items : List (Item I)) : Except Fault (Accu I) := items.foldlM (accuAdd mem) .first

/-! ### Integers -/

section Integers

variable {mode mode' : Accu I} {x y : I.Obj} {total n : ℤ}

/-- The accumulator has the sum of some integers. -/
inductive Accu.Sums : Accu I → ℤ → Prop where
  | second {x : I.Obj} (hx : I.Valid x) : Accu.Sums (.second (.int x)) (I.value x)
  | object {x : I.Obj} (hx : I.Valid x) : Accu.Sums (.object x) (I.value x)
  | int {n : ℤ} (hlo : -2 ^ (if I.int64Defined then 31 else 63) ≤ n)
    (hhi : n < 2 ^ (if I.int64Defined then 31 else 63)) : Accu.Sums (.int n) n
  | int64 {n : ℤ} (hlo : -2 ^ 63 ≤ n) (hhi : n < 2 ^ 63) : Accu.Sums (.int64 n) n

theorem signedOf_eq_some {w : ℕ} {r : ℤ} (h : signedOf w n = some r) : r = n ∧ -2 ^ (w - 1) ≤ n ∧ n < 2 ^ (w - 1) := by
  unfold signedOf at h
  split_ifs at h with hfits
  · cases h
    exact ⟨rfl, hfits⟩

theorem addObjects_sums (hx : I.Valid x) (hy : I.Valid y) :
    Ends (addObjects x y) fun mode => mode.Sums (I.value x + I.value y) := by
  refine (I.intAdd_ends hx hy).map fun z hz => ?_
  rw [← hz.2]
  exact .object hz.1

/-- From `convert_int_to_object` and `convert_int64_to_object`. -/
theorem convert_sums {new : Option I.Obj} (hnew : Ends new fun z => I.Valid z ∧ I.value z = n) (hy : I.Valid y) :
    Ends (new >>= fun prev => addObjects prev y) fun mode => mode.Sums (n + I.value y) := by
  refine Ends.bind hnew fun prev hprev => ?_
  rw [← hprev.2]
  exact addObjects_sums hprev.1 hy

theorem accuSecondInt_sums (hx : I.Valid x) (hy : I.Valid y) :
    Ends (accuSecondInt x y) fun mode => mode.Sums (I.value x + I.value y) := by
  have hobjects := addObjects_sums hx hy
  unfold accuSecondInt
  rw [I.tryAsInt64_eq hx, some_bind]
  cases h1 : signedOf 64 (I.value x) with
  | none => exact hobjects
  | some intval1 =>
    dsimp only
    rw [I.tryAsInt64_eq hy, some_bind]
    cases h2 : signedOf 64 (I.value y) with
    | none => exact hobjects
    | some intval2 =>
      obtain ⟨rfl, -⟩ := signedOf_eq_some h1
      obtain ⟨rfl, -⟩ := signedOf_eq_some h2
      dsimp only
      cases hsum : sadd 64 (I.value x) (I.value y) with
      | none => exact hobjects
      | some sum =>
        obtain ⟨rfl, hlo, hhi⟩ := signedOf_eq_some hsum
        dsimp only
        split_ifs with hwide
        · exact Ends.pure (.int64 hlo hhi)
        · have hnarrow : I.int64Defined = true → -2 ^ 31 ≤ I.value x + I.value y ∧ I.value x + I.value y ≤ 2 ^ 31 - 1 :=
            fun hdefined => not_not.mp fun hfar => hwide ⟨hdefined, hfar⟩
          refine Ends.pure (.int ?_ ?_)
          · split_ifs with hdefined
            · exact (hnarrow hdefined).1
            · exact hlo
          · split_ifs with hdefined
            · exact Int.lt_of_le_sub_one (hnarrow hdefined).2
            · exact hhi

theorem accuAddInt64_sums {mode : ℤ → Accu I} {new : ℤ → Option I.Obj} {value : ℤ}
    (hmode : ∀ n, -2 ^ 63 ≤ n → n < 2 ^ 63 → (mode n).Sums n)
    (hnew : Ends (new value) fun z => I.Valid z ∧ I.value z = value) (hy : I.Valid y) :
    Ends (accuAddInt64 mode new value y) fun mode => mode.Sums (value + I.value y) := by
  have hobjects := convert_sums hnew hy
  unfold accuAddInt64
  rw [I.tryAsInt64_eq hy, some_bind]
  cases h1 : signedOf 64 (I.value y) with
  | none => exact hobjects
  | some addend =>
    obtain ⟨rfl, -⟩ := signedOf_eq_some h1
    dsimp only
    cases hsum : sadd 64 value (I.value y) with
    | none => exact hobjects
    | some sum =>
      obtain ⟨rfl, hlo, hhi⟩ := signedOf_eq_some hsum
      exact Ends.pure (hmode _ hlo hhi)

theorem accuAddInt32_sums {value : ℤ} (hdefined : I.int64Defined = true) (hlo : -2 ^ 31 ≤ value) (hhi : value < 2 ^ 31)
    (hy : I.Valid y) : Ends (accuAddInt32 value y) fun mode => mode.Sums (value + I.value y) := by
  have hobjects : Ends (I.newSSize value >>= fun prev => addObjects prev y) fun mode => mode.Sums (value + I.value y) := by
    refine convert_sums (I.newSSize_ends ?_ ?_) hy
    · rwa [if_pos hdefined]
    · rwa [if_pos hdefined]
  unfold accuAddInt32
  rw [I.tryAsInt32_eq hy, some_bind]
  cases h1 : signedOf 32 (I.value y) with
  | none =>
    dsimp only
    rw [I.tryAsInt64_eq hy, some_bind]
    cases h2 : signedOf 64 (I.value y) with
    | none => exact hobjects
    | some addend64 =>
      obtain ⟨rfl, -⟩ := signedOf_eq_some h2
      dsimp only
      cases hsum : sadd 64 (I.value y) value with
      | none => exact hobjects
      | some sum =>
        obtain ⟨rfl, hlo, hhi⟩ := signedOf_eq_some hsum
        rw [Int.add_comm] at hlo hhi ⊢
        exact Ends.pure (.int64 hlo hhi)
  | some addend =>
    obtain ⟨rfl, hlo', hhi'⟩ := signedOf_eq_some h1
    dsimp only
    cases hsum : sadd 32 value (I.value y) with
    | none => exact Ends.pure (.int64 (by omega) (by omega))
    | some sum =>
      obtain ⟨rfl, hlo, hhi⟩ := signedOf_eq_some hsum
      refine Ends.pure (.int ?_ ?_)
      · rwa [if_pos hdefined]
      · rwa [if_pos hdefined]

/-- Another integer is added to the sum. -/
theorem accuAdd_sums (mem : Memory) (hmode : mode.Sums total) (hy : I.Valid y) :
    ∃ mode', accuAdd mem mode (.int y) = .ok mode' ∧ mode'.Sums (total + I.value y) := by
  cases hmode with
  | second hx =>
    obtain ⟨mode', h, hsum⟩ := accuSecondInt_sums hx hy
    exact ⟨mode', by rw [accuAdd, h]; rfl, hsum⟩
  | object hx =>
    obtain ⟨mode', h, hsum⟩ := addObjects_sums hx hy
    exact ⟨mode', by rw [accuAdd, h]; rfl, hsum⟩
  | int hlo hhi =>
    by_cases hdefined : I.int64Defined = true
    · rw [if_pos hdefined] at hlo hhi
      obtain ⟨mode', h, hsum⟩ := accuAddInt32_sums hdefined hlo hhi hy
      exact ⟨mode', by rw [accuAdd, if_pos hdefined, h]; rfl, hsum⟩
    · rw [if_neg hdefined] at hlo hhi
      have hmode : ∀ n, -2 ^ 63 ≤ n → n < 2 ^ 63 → (Accu.int n : Accu I).Sums n := by
        intro n hlo hhi
        refine .int ?_ ?_
        · rwa [if_neg hdefined]
        · rwa [if_neg hdefined]
      obtain ⟨mode', h, hsum⟩ := accuAddInt64_sums hmode (I.newInt64_ends hlo hhi) hy
      exact ⟨mode', by rw [accuAdd, if_neg hdefined, h]; rfl, hsum⟩
  | int64 hlo hhi =>
    obtain ⟨mode', h, hsum⟩ := accuAddInt64_sums (fun n => Accu.Sums.int64) (I.newInt64_ends hlo hhi) hy
    exact ⟨mode', by rw [accuAdd, h]; rfl, hsum⟩

theorem accuAddAll_sums (mem : Memory) : ∀ (xs : List I.Obj) {mode : Accu I} {total : ℤ}, mode.Sums total →
    (∀ x ∈ xs, I.Valid x) → ∃ mode', (xs.map Item.int).foldlM (accuAdd mem) mode = .ok mode' ∧
      mode'.Sums (total + (xs.map I.value).sum) := by
  intro xs
  induction xs with
  | nil =>
    intro mode total hmode _
    exact ⟨mode, rfl, by rwa [List.map_nil, List.sum_nil, Int.add_zero]⟩
  | cons x xs ih =>
    intro mode total hmode hvalid
    obtain ⟨mode1, hadd, hmode1⟩ := accuAdd_sums mem hmode (hvalid x List.mem_cons_self)
    obtain ⟨mode2, hrest, hmode2⟩ := ih hmode1 fun y hy => hvalid y (List.mem_cons_of_mem _ hy)
    refine ⟨mode2, ?_, ?_⟩
    · rw [List.map_cons, List.foldlM_cons, hadd]
      exact hrest
    · rwa [List.map_cons, List.sum_cons, ← Int.add_assoc]

/-- The sum is packed. -/
theorem accuPack_sums (mem : Memory) (hmode : mode.Sums total) :
    ∃ z, accuPack mem mode = .ok (some (.int z)) ∧ I.Valid z ∧ I.value z = total := by
  cases hmode with
  | second hx => exact ⟨_, rfl, hx, rfl⟩
  | object hx => exact ⟨_, rfl, hx, rfl⟩
  | int hlo hhi =>
    obtain ⟨z, h, hz⟩ := I.newSSize_ends hlo hhi
    exact ⟨z, by rw [accuPack, h]; rfl, hz⟩
  | int64 hlo hhi =>
    obtain ⟨z, h, hz⟩ := I.newInt64_ends hlo hhi
    exact ⟨z, by rw [accuPack, h]; rfl, hz⟩

/-- The accumulator gives the sum of the integers. -/
theorem accu_ints (mem : Memory) {xs : List I.Obj} (hxs : xs ≠ []) (hvalid : ∀ x ∈ xs, I.Valid x) :
    ∃ z, (accuAddAll mem (xs.map Item.int) >>= accuPack mem) = .ok (some (.int z)) ∧ I.Valid z ∧
      I.value z = (xs.map I.value).sum := by
  obtain ⟨x, xs, rfl⟩ := List.exists_cons_of_ne_nil hxs
  obtain ⟨mode, hadd, hmode⟩ := accuAddAll_sums mem xs (Accu.Sums.second (hvalid x List.mem_cons_self))
    fun y hy => hvalid y (List.mem_cons_of_mem _ hy)
  obtain ⟨z, hpack, hz⟩ := accuPack_sums mem hmode
  refine ⟨z, ?_, hz⟩
  have hall : accuAddAll mem ((x :: xs).map Item.int) = .ok mode := hadd
  rw [hall]
  exact hpack

end Integers

/-! ### Bytes -/

section Bytes

variable {mode : Accu I} {data : List ℕ}

/-- The accumulator has some bytes. -/
inductive Accu.HoldsBytes : Accu I → List ℕ → Prop where
  | second {data : List ℕ} (hdata : ∀ b ∈ data, b < 2 ^ 8) : Accu.HoldsBytes (.second (.bytes data)) data
  | bytes {printer : BytesPrinter} (hgood : printer.Good) : Accu.HoldsBytes (.bytes printer) printer.data

theorem init_append_yields (mem : Memory) (hdata : ∀ b ∈ data, b < 2 ^ 8) :
    Yields (BytesPrinter.init.append mem data) fun p => p.Good ∧ p.data = data := by
  refine (BytesPrinter.append_yields (p := BytesPrinter.init) ?_ hdata).mono fun p hp => ⟨hp.1, hp.2⟩
  intro cells heq
  cases heq

theorem accuAdd_bytes (mem : Memory) {old : List ℕ} (hmode : mode.HoldsBytes old) (hdata : ∀ b ∈ data, b < 2 ^ 8) :
    Yields (accuAdd mem mode (.bytes data)) fun mode' => mode'.HoldsBytes (old ++ data) := by
  cases hmode with
  | second hold =>
    refine Yields.bind (init_append_yields mem hold) fun p hp => ?_
    refine Yields.bind (BytesPrinter.append_yields hp.1 hdata) fun p' hp' => Yields.ok ?_
    rw [← hp.2, ← hp'.2]
    exact .bytes hp'.1
  | bytes hgood =>
    refine Yields.bind (BytesPrinter.append_yields hgood hdata) fun p' hp' => Yields.ok ?_
    rw [← hp'.2]
    exact .bytes hp'.1

theorem accuPack_bytes (mem : Memory) (hmode : mode.HoldsBytes data) : accuPack mem mode = .ok (some (.bytes data)) := by
  cases hmode with
  | second hdata => rfl
  | bytes hgood => rw [accuPack, BytesPrinter.pack_eq hgood]

end Bytes

/-! ### Strings -/

section Strings

variable {mem : Memory} {mode : Accu I} {p : UnicodePrinter} {string : DeeString}

/-- Every character of a string fits the width of the string. -/
def Fits (string : DeeString) : Prop := ∀ c ∈ string.uData, c < 2 ^ string.uWidth.bits

/-- The state of the printer of an accumulator. -/
structure Printing (p : UnicodePrinter) : Prop where
  good : p.Good
  pend : p.upPend = []
  narrow : p.upBuffer = none → p.width = .byte1

/-- A printer without a buffer stays as it is when nothing is printed. -/
theorem printString_nil (hbuffer : p.upBuffer = none) (hempty : string.uData = []) :
    printString mem p string = .ok p := by
  unfold printString UnicodePrinter.print8 UnicodePrinter.print16 UnicodePrinter.print32 UnicodePrinter.printText32
    UnicodePrinter.firstText
  rw [hempty, hbuffer]
  cases string.uWidth <;> rfl

theorem printString_yields (hp : Printing p) (hstring : Fits string) :
    Yields (printString mem p string) fun p' => Printing p' ∧ p'.chars = p.chars ++ string.uData := by
  have happended : Yields (printString mem p string) (p.Appended string.uData p.upPend) := by
    unfold Fits at hstring
    unfold printString
    cases hwidth : string.uWidth with
    | byte1 => exact print8_yields hp.good (by rwa [hwidth] at hstring)
    | byte2 => exact print16_yields hp.good (by rwa [hwidth] at hstring)
    | byte4 =>
      refine print32_yields hp.good (by rwa [hwidth] at hstring) fun _ _ hnone hwide => ?_
      exact absurd (hp.narrow hnone) hwide
  refine ⟨happended.1, fun p' hp' => ?_⟩
  have h := happended.2 p' hp'
  refine ⟨⟨h.good, h.pend.trans hp.pend, fun hnone => ?_⟩, h.chars⟩
  rcases h.buffer with hsome | ⟨hempty, hbuffer⟩
  · exact absurd hnone hsome
  · rw [printString_nil hbuffer hempty] at hp'
    cases hp'
    exact hp.narrow hnone

/-- The accumulator has some characters. -/
inductive Accu.HoldsString : Accu I → List ℕ → Prop where
  | second {string : DeeString} (hstring : Fits string) : Accu.HoldsString (.second (.string string)) string.uData
  | string {printer : UnicodePrinter} (hprinter : Printing printer) : Accu.HoldsString (.string printer) printer.chars

/-- The buffer of a printer is resized to its final length when it is longer. -/
def Accu.Shrinks (mem : Memory) : Accu I → Prop
  | .string printer => printer.Shrinks mem
  | _ => True

theorem accuAdd_string (mem : Memory) {old : List ℕ} (hmode : mode.HoldsString old) (hstring : Fits string) :
    Yields (accuAdd mem mode (.string string)) fun mode' => mode'.HoldsString (old ++ string.uData) := by
  cases hmode with
  | second hold =>
    have hinit : Printing UnicodePrinter.init := ⟨init_good, rfl, fun _ => rfl⟩
    refine Yields.bind (printString_yields hinit hold) fun p hp => ?_
    refine Yields.bind (printString_yields hp.1 hstring) fun p' hp' => Yields.ok ?_
    have hchars : p.chars = _ := hp.2.trans (List.nil_append _)
    rw [← hchars, ← hp'.2]
    exact .string hp'.1
  | string hprinter =>
    refine Yields.bind (printString_yields hprinter hstring) fun p' hp' => Yields.ok ?_
    rw [← hp'.2]
    exact .string hp'.1

/-- The string is right exactly when the buffer of the printer gets its final length. -/
theorem accuPack_string (mem : Memory) {text : List ℕ} (hmode : mode.HoldsString text) :
    Yields (accuPack mem mode) fun r => (∃ s, r = some (.string s) ∧ s.uData = text) ↔ mode.Shrinks mem := by
  cases hmode with
  | second hstring => exact Yields.ok (iff_of_true ⟨_, rfl, rfl⟩ trivial)
  | string hprinter =>
    refine Yields.bind (pack_yields_iff hprinter.good) fun s hs => Yields.ok ?_
    refine Iff.trans ⟨?_, fun htext => ⟨s, rfl, htext⟩⟩ hs
    rintro ⟨s', heq, htext⟩
    cases heq
    exact htext

end Strings

/-! ### The accumulator as a fold -/

/-- A property of the sum of some items that each further item keeps. -/
theorem accuAddAll_yields {α : Type} {item : α → Item I} {value : α → List ℕ} {Valid : α → Prop}
    {Holds : Accu I → List ℕ → Prop} (mem : Memory)
    (hadd : ∀ {mode old x}, Holds mode old → Valid x → Yields (accuAdd mem mode (item x)) fun mode' =>
      Holds mode' (old ++ value x)) :
    ∀ (xs : List α) {mode : Accu I} {old : List ℕ}, Holds mode old → (∀ x ∈ xs, Valid x) →
      Yields ((xs.map item).foldlM (accuAdd mem) mode) fun mode' => Holds mode' (old ++ xs.flatMap value) := by
  intro xs
  induction xs with
  | nil =>
    intro mode old hmode _
    refine Yields.ok ?_
    rwa [List.flatMap_nil, List.append_nil]
  | cons x xs ih =>
    intro mode old hmode hvalid
    rw [List.map_cons, List.foldlM_cons, List.flatMap_cons, ← List.append_assoc]
    exact Yields.bind (hadd hmode (hvalid x List.mem_cons_self)) fun mode' hmode' =>
      ih hmode' fun y hy => hvalid y (List.mem_cons_of_mem _ hy)

/-- Integer objects that are the numbers themselves. -/
def plainIntObjects (int64Defined : Bool) : IntObjects where
  Obj := ℤ
  value := id
  Valid := fun _ => True
  int64Defined := int64Defined
  tryAsInt32 := fun n => some (signedOf 32 n)
  tryAsInt64 := fun n => some (signedOf 64 n)
  newSSize := some
  newInt64 := some
  intAdd := fun a b => some (a + b)
  tryAsInt32_eq := fun _ => rfl
  tryAsInt64_eq := fun _ => rfl
  newSSize_ends := fun _ _ => Ends.pure ⟨trivial, rfl⟩
  newInt64_ends := fun _ _ => Ends.pure ⟨trivial, rfl⟩
  intAdd_ends := fun _ _ => Ends.pure ⟨trivial, rfl⟩

end Deemon.Runtime
