import Mathlib.Data.List.Basic
import Mathlib.Data.Option.Basic

/-!
# The tokens of a JSON text

The token functions of libjson are an interface, `TokenCore`. What their documentation promises is `Documented`: a
position of the parser stands between two tokens of the text, and the functions look at the tokens around it.
-/

namespace Deemon.Json

/-! ### Tokens -/

/-- `JSON_PARSER_*`, or `JSON_ERROR_SYNTAX` in its place. -/
inductive Tok where
  | array
  | endArray
  | object
  | endObject
  | colon
  | comma
  | string
  | number
  | true
  | false
  | null
  | errorSyntax
  deriving DecidableEq

/-- `JSON_ERROR_*`. -/
inductive Status where
  | errorOk
  | errorNoobj
  | errorSyntax
  deriving DecidableEq

/-- The tokens of a text, with the strings and the numbers they stand for. -/
inductive Token (Str Num : Type) where
  | mark (tok : Tok)
  | string (s : Str)
  | number (x : Num)

variable {Str Num Pos : Type}

def Token.tok : Token Str Num → Tok
  | .mark tok => tok
  | .string _ => .string
  | .number _ => .number

def Tok.opens : Tok → Bool
  | .object => .true
  | .array => .true
  | _ => .false

def Tok.closes : Tok → Bool
  | .endObject => .true
  | .endArray => .true
  | _ => .false

/-- Neither a bracket nor a comma. -/
def Tok.plain (tok : Tok) : Bool := !tok.opens && !tok.closes && tok != .comma

/-- The first comma or closing bracket outside of the brackets that open behind the start (`depth` of them are open). -/
def levelEnd : ℕ → List (Token Str Num) → Option (ℕ × Tok)
  | _, [] => none
  | depth, t :: ts =>
    if depth = 0 ∧ (t.tok = .comma ∨ t.tok.closes) then some (0, t.tok)
    else (levelEnd (if t.tok.opens then depth + 1 else if t.tok.closes then depth - 1 else depth) ts).map
      fun e => (e.1 + 1, e.2)

/-- The brackets that are open behind some tokens, the innermost one first. -/
def openStack : List ℕ → ℕ → List (Token Str Num) → List ℕ
  | stack, _, [] => stack
  | stack, i, t :: ts => openStack (if t.tok.opens then i :: stack else if t.tok.closes then stack.tail else stack) (i + 1) ts

/-! ### Texts -/

/-- The parts of the grammar. -/
inductive Part where
  | value
  | elements
  | members

/-- The syntax trees of JSON texts. -/
inductive JsonText (Str Num : Type) : Part → Type where
  | null : JsonText Str Num .value
  | bool (b : Bool) : JsonText Str Num .value
  | number (x : Num) : JsonText Str Num .value
  | string (s : Str) : JsonText Str Num .value
  | array (elems : JsonText Str Num .elements) : JsonText Str Num .value
  | object (members : JsonText Str Num .members) : JsonText Str Num .value
  | noElements : JsonText Str Num .elements
  | element (value : JsonText Str Num .value) (rest : JsonText Str Num .elements) : JsonText Str Num .elements
  | noMembers : JsonText Str Num .members
  | member (key : Str) (value : JsonText Str Num .value) (rest : JsonText Str Num .members) : JsonText Str Num .members

/-- Induction on members alone. -/
theorem JsonText.members_induct {motive : JsonText Str Num .members → Prop} (noMembers : motive .noMembers)
    (member : ∀ key value rest, motive rest → motive (.member key value rest)) : ∀ members, motive members
  | .noMembers => noMembers
  | .member key value rest => member key value rest (rest.members_induct noMembers member)

/-- There are no more elements or members. -/
def JsonText.isEnd : ∀ {i : Part}, JsonText Str Num i → Bool
  | _, .noElements => true
  | _, .noMembers => true
  | _, _ => false

/-- The tokens of a text. -/
def JsonText.tokens : ∀ {i : Part}, JsonText Str Num i → List (Token Str Num)
  | _, .null => [.mark .null]
  | _, .bool b => [.mark (if b then .true else .false)]
  | _, .number x => [.number x]
  | _, .string s => [.string s]
  | _, .array elems => .mark .array :: (elems.tokens ++ [.mark .endArray])
  | _, .object members => .mark .object :: (members.tokens ++ [.mark .endObject])
  | _, .noElements => []
  | _, .element value rest => value.tokens ++ if rest.isEnd then [] else .mark .comma :: rest.tokens
  | _, .noMembers => []
  | _, .member key value rest =>
    .string key :: .mark .colon :: (value.tokens ++ if rest.isEnd then [] else .mark .comma :: rest.tokens)

/-- What follows an element or a member. -/
def JsonText.tail {i : Part} (rest : JsonText Str Num i) : List (Token Str Num) :=
  if rest.isEnd then [] else .mark .comma :: rest.tokens

/-! ### The token functions -/

/-- The functions of libjson, and the parser of numbers. -/
structure TokenCore (Pos Str Num : Type) where
  yield : Pos → Tok × Pos
  peeknext : Pos → Tok
  peekprev : Pos → Tok
  next : Pos → Status × Pos
  rewind : Pos → Tok × Pos
  printstring : Pos → Option (Str × Pos)
  parseNumber : Pos → Option (Num × Pos)

/-- What the functions do on a text, where `At p i` says that the position `p` is in front of token `i`, and `behind i`
is the position that reading token `i` leaves. -/
structure Documented (core : TokenCore Pos Str Num) (toks : List (Token Str Num)) (At : Pos → ℕ → Prop)
    (behind : ℕ → Pos) : Prop where
  at_behind : ∀ i < toks.length, At (behind i) (i + 1)
  yield : ∀ p i t, At p i → toks[i]? = some t → core.yield p = (t.tok, behind i)
  peeknext : ∀ p i t, At p i → toks[i]? = some t → core.peeknext p = t.tok
  peekprev : ∀ p i t, At p (i + 1) → toks[i]? = some t → core.peekprev p = t.tok
  /-- The next element of the array or object that the position is in starts behind the next comma. -/
  next_comma : ∀ p i n, At p i → levelEnd 0 (toks.drop i) = some (n, .comma) →
    (core.next p).1 = .errorOk ∧ At (core.next p).2 (i + n + 1)
  /-- Without a next element the position goes to the closing bracket. -/
  next_end : ∀ p i n tok, At p i → levelEnd 0 (toks.drop i) = some (n, tok) → tok ≠ .comma →
    (core.next p).1 = .errorNoobj ∧ At (core.next p).2 (i + n)
  /-- Rewinding goes to the start of the array or object that the position is in. -/
  rewind : ∀ p i j t, At p i → (openStack [] 0 (toks.take i)).head? = some j → toks[j]? = some t →
    (core.rewind p).1 = t.tok ∧ At (core.rewind p).2 (j + 1)
  printstring : ∀ p i s, At p i → toks[i]? = some (.string s) → core.printstring p = some (s, behind i)
  printstring_other : ∀ p i t, At p i → toks[i]? = some t → t.tok ≠ .string → core.printstring p = none
  parseNumber : ∀ p i x, At p i → toks[i]? = some (.number x) → core.parseNumber p = some (x, behind i)

/-! ### Brackets -/

section Brackets

variable {i : Part} {depth n : ℕ} {stack : List ℕ} {tok : Tok} {t : Token Str Num} {ts rest : List (Token Str Num)}

/-- An end that is some more tokens away. -/
def shifted (n : ℕ) (e : Option (ℕ × Tok)) : Option (ℕ × Tok) := e.map fun e => (e.1 + n, e.2)

theorem shifted_zero (e : Option (ℕ × Tok)) : shifted 0 e = e := by cases e <;> rfl

theorem shifted_shifted (m n : ℕ) (e : Option (ℕ × Tok)) : shifted m (shifted n e) = shifted (n + m) e := by
  cases e with
  | none => rfl
  | some e => exact congrArg (fun k => some (k, e.2)) (Nat.add_assoc _ _ _)

theorem levelEnd_plain (h : t.tok.plain = true) : levelEnd depth (t :: ts) = shifted 1 (levelEnd depth ts) := by
  rw [levelEnd]
  cases htok : t.tok with
  | array | endArray | object | endObject | comma =>
    rw [htok] at h
    cases h
  | _ =>
    rw [if_neg fun hend => hend.2.elim Tok.noConfusion Bool.false_ne_true]
    rfl

theorem levelEnd_comma : levelEnd (depth + 1) (.mark .comma :: ts) = shifted 1 (levelEnd (depth + 1) ts) := by
  rw [levelEnd, if_neg fun hend => nomatch hend.1]
  rfl

/-- What a pair of brackets encloses is skipped. -/
theorem levelEnd_bracket {opening closing : Tok} (hopens : opening.opens = true) (hcloses : closing.closes = true)
    (hinner : levelEnd (depth + 1) (ts ++ .mark closing :: rest) =
      shifted ts.length (levelEnd (depth + 1) (.mark closing :: rest))) :
    levelEnd depth (.mark opening :: (ts ++ .mark closing :: rest)) = shifted (ts.length + 2) (levelEnd depth rest) := by
  have hopen : levelEnd depth (.mark opening :: (ts ++ .mark closing :: rest)) =
      shifted 1 (levelEnd (depth + 1) (ts ++ .mark closing :: rest)) := by
    rw [levelEnd]
    cases opening with
    | array | object =>
      rw [if_neg fun hend => hend.2.elim Tok.noConfusion Bool.false_ne_true]
      rfl
    | _ => cases hopens
  have hclose : levelEnd (depth + 1) (.mark closing :: rest) = shifted 1 (levelEnd depth rest) := by
    rw [levelEnd, if_neg fun hend => nomatch hend.1]
    cases closing with
    | endArray | endObject => rfl
    | _ => cases hcloses
  rw [hopen, hinner, hclose, shifted_shifted, shifted_shifted]
  congr 1
  omega

theorem levelEnd_tail {others : JsonText Str Num i} (hdepth : depth ≠ 0)
    (hothers : levelEnd depth (others.tokens ++ rest) = shifted others.tokens.length (levelEnd depth rest)) :
    levelEnd depth (others.tail ++ rest) = shifted others.tail.length (levelEnd depth rest) := by
  obtain ⟨depth, rfl⟩ := Nat.exists_eq_succ_of_ne_zero hdepth
  unfold JsonText.tail
  cases others.isEnd with
  | true => exact (shifted_zero _).symm
  | false =>
    rw [if_neg Bool.false_ne_true, List.cons_append, levelEnd_comma, hothers, shifted_shifted]
    rfl

/-- A value is skipped as a whole, and so are elements and members inside of brackets. -/
theorem levelEnd_tokens (j : JsonText Str Num i) (h : i = .value ∨ depth ≠ 0) :
    levelEnd depth (j.tokens ++ rest) = shifted j.tokens.length (levelEnd depth rest) := by
  induction j generalizing depth rest with
  | null => exact levelEnd_plain rfl
  | bool b => cases b <;> exact levelEnd_plain rfl
  | number x => exact levelEnd_plain rfl
  | string s => exact levelEnd_plain rfl
  | array elems ih =>
    rw [JsonText.tokens, List.cons_append, List.append_assoc, List.singleton_append,
      levelEnd_bracket rfl rfl (ih (.inr (Nat.succ_ne_zero _))), List.length_cons, List.length_append]
    rfl
  | object members ih =>
    rw [JsonText.tokens, List.cons_append, List.append_assoc, List.singleton_append,
      levelEnd_bracket rfl rfl (ih (.inr (Nat.succ_ne_zero _))), List.length_cons, List.length_append]
    rfl
  | noElements => exact (shifted_zero _).symm
  | element value others hvalue hothers =>
    have hdepth := h.resolve_left Part.noConfusion
    rw [show (JsonText.element value others).tokens = value.tokens ++ others.tail from rfl, List.append_assoc,
      hvalue (.inl rfl), levelEnd_tail hdepth (hothers (.inr hdepth)), shifted_shifted, List.length_append, Nat.add_comm]
  | noMembers => exact (shifted_zero _).symm
  | member key value others hvalue hothers =>
    have hdepth := h.resolve_left Part.noConfusion
    rw [show (JsonText.member key value others).tokens = .string key :: .mark .colon :: (value.tokens ++ others.tail)
      from rfl, List.cons_append, List.cons_append, List.append_assoc, levelEnd_plain rfl, levelEnd_plain rfl,
      hvalue (.inl rfl), levelEnd_tail hdepth (hothers (.inr hdepth)), shifted_shifted, shifted_shifted,
      shifted_shifted, List.length_cons, List.length_cons, List.length_append]
    congr 1
    omega

theorem openStack_flat (hopens : t.tok.opens = false) (hcloses : t.tok.closes = false) :
    openStack stack n (t :: ts) = openStack stack (n + 1) ts := by
  rw [openStack, hopens, hcloses]
  rfl

theorem openStack_bracket {opening closing : Tok} (hopens : opening.opens = true) (hcloses : closing.closes = true)
    (hinner : openStack (n :: stack) (n + 1) (ts ++ .mark closing :: rest) =
      openStack (n :: stack) (n + 1 + ts.length) (.mark closing :: rest)) :
    openStack stack n (.mark opening :: (ts ++ .mark closing :: rest)) = openStack stack (n + (ts.length + 2)) rest := by
  have hclose : closing.opens = false := by
    cases closing with
    | array | object => cases hcloses
    | _ => rfl
  have hopen : (Token.mark opening : Token Str Num).tok.opens = true := hopens
  have hnot : (Token.mark closing : Token Str Num).tok.opens = false := hclose
  have hshut : (Token.mark closing : Token Str Num).tok.closes = true := hcloses
  rw [openStack, hopen, if_pos rfl, hinner, openStack, hnot, hshut, if_neg Bool.false_ne_true, if_pos rfl, List.tail_cons]
  congr 1
  omega

theorem openStack_tail {others : JsonText Str Num i}
    (hothers : ∀ n, openStack stack n (others.tokens ++ rest) = openStack stack (n + others.tokens.length) rest) :
    openStack stack n (others.tail ++ rest) = openStack stack (n + others.tail.length) rest := by
  unfold JsonText.tail
  cases others.isEnd with
  | true => rfl
  | false =>
    rw [if_neg Bool.false_ne_true, List.cons_append, openStack_flat rfl rfl, hothers, List.length_cons]
    congr 1
    omega

/-- Of the brackets that a text opens, none stays open. -/
theorem openStack_tokens (j : JsonText Str Num i) :
    openStack stack n (j.tokens ++ rest) = openStack stack (n + j.tokens.length) rest := by
  induction j generalizing stack n rest with
  | null => exact openStack_flat rfl rfl
  | bool b => cases b <;> exact openStack_flat rfl rfl
  | number x => exact openStack_flat rfl rfl
  | string s => exact openStack_flat rfl rfl
  | array elems ih =>
    rw [JsonText.tokens, List.cons_append, List.append_assoc, List.singleton_append, openStack_bracket rfl rfl ih,
      List.length_cons, List.length_append]
    rfl
  | object members ih =>
    rw [JsonText.tokens, List.cons_append, List.append_assoc, List.singleton_append, openStack_bracket rfl rfl ih,
      List.length_cons, List.length_append]
    rfl
  | noElements => rfl
  | element value others hvalue hothers =>
    rw [show (JsonText.element value others).tokens = value.tokens ++ others.tail from rfl, List.append_assoc, hvalue,
      openStack_tail (fun _ => hothers), List.length_append, Nat.add_assoc]
  | noMembers => rfl
  | member key value others hvalue hothers =>
    rw [show (JsonText.member key value others).tokens = .string key :: .mark .colon :: (value.tokens ++ others.tail)
      from rfl, List.cons_append, List.cons_append, List.append_assoc, openStack_flat rfl rfl, openStack_flat rfl rfl,
      hvalue, openStack_tail (fun _ => hothers), List.length_cons, List.length_cons, List.length_append]
    congr 1
    omega

theorem openStack_append : openStack stack n (ts ++ rest) = openStack (openStack stack n ts) (n + ts.length) rest := by
  induction ts generalizing stack n with
  | nil => rfl
  | cons t ts ih =>
    rw [List.cons_append, openStack, ih, openStack, List.length_cons]
    congr 1
    omega

/-- Texts are free of errors. -/
theorem ne_errorSyntax (j : JsonText Str Num i) : ∀ t ∈ j.tokens, t.tok ≠ .errorSyntax := by
  have htail : ∀ {i} {others : JsonText Str Num i}, (∀ t ∈ others.tokens, t.tok ≠ .errorSyntax) →
      ∀ t ∈ others.tail, t.tok ≠ .errorSyntax := by
    intro i others hothers t ht
    unfold JsonText.tail at ht
    split at ht
    · cases ht
    · rcases List.mem_cons.mp ht with rfl | ht
      · exact Tok.noConfusion
      · exact hothers t ht
  induction j with
  | null => exact List.forall_mem_singleton.mpr Tok.noConfusion
  | bool b => cases b <;> exact List.forall_mem_singleton.mpr Tok.noConfusion
  | number x => exact List.forall_mem_singleton.mpr Tok.noConfusion
  | string s => exact List.forall_mem_singleton.mpr Tok.noConfusion
  | array elems ih =>
    exact List.forall_mem_cons.mpr ⟨Tok.noConfusion,
      List.forall_mem_append.mpr ⟨ih, List.forall_mem_singleton.mpr Tok.noConfusion⟩⟩
  | object members ih =>
    exact List.forall_mem_cons.mpr ⟨Tok.noConfusion,
      List.forall_mem_append.mpr ⟨ih, List.forall_mem_singleton.mpr Tok.noConfusion⟩⟩
  | noElements => exact fun t ht => nomatch ht
  | element value others hvalue hothers => exact List.forall_mem_append.mpr ⟨hvalue, htail hothers⟩
  | noMembers => exact fun t ht => nomatch ht
  | member key value others hvalue hothers =>
    exact List.forall_mem_cons.mpr ⟨Tok.noConfusion, List.forall_mem_cons.mpr ⟨Tok.noConfusion,
      List.forall_mem_append.mpr ⟨hvalue, htail hothers⟩⟩⟩

end Brackets

/-! ### The token functions on a list -/

section ListCore

/-- Token functions whose positions are numbers of tokens. -/
def tokenListCore (toks : List (Token Str Num)) : TokenCore ℕ Str Num where
  yield i := ((toks[i]?.map Token.tok).getD .null, i + 1)
  peeknext i := (toks[i]?.map Token.tok).getD .null
  peekprev i := (toks[i - 1]?.map Token.tok).getD .null
  next i :=
    match levelEnd 0 (toks.drop i) with
    | none => (.errorSyntax, i)
    | some (n, tok) => if tok = .comma then (.errorOk, i + n + 1) else (.errorNoobj, i + n)
  rewind i :=
    match (openStack [] 0 (toks.take i)).head? with
    | none => (.null, i)
    | some j => ((toks[j]?.map Token.tok).getD .null, j + 1)
  printstring i :=
    match toks[i]? with
    | some (.string s) => some (s, i + 1)
    | _ => none
  parseNumber i :=
    match toks[i]? with
    | some (.number x) => some (x, i + 1)
    | _ => none

theorem tokenListCore_documented (toks : List (Token Str Num)) :
    Documented (tokenListCore toks) toks (fun p i => p = i) (fun i => i + 1) where
  at_behind _ _ := rfl
  yield := by
    rintro p _ t rfl ht
    simp [tokenListCore, ht]
  peeknext := by
    rintro p _ t rfl ht
    simp [tokenListCore, ht]
  peekprev := by
    rintro _ i t rfl ht
    simp [tokenListCore, ht]
  next_comma := by
    rintro p _ n rfl hend
    simp [tokenListCore, hend]
  next_end := by
    rintro p _ n tok rfl hend htok
    simp [tokenListCore, hend, htok]
  rewind := by
    rintro p _ j t rfl hj ht
    simp [tokenListCore, hj, ht]
  printstring := by
    rintro p _ s rfl hs
    simp [tokenListCore, hs]
  printstring_other := by
    rintro p _ t rfl ht htok
    unfold tokenListCore
    dsimp only
    rw [ht]
    cases t with
    | string s => exact absurd rfl htok
    | mark tok => rfl
    | number x => rfl
  parseNumber := by
    rintro p _ x rfl hx
    simp [tokenListCore, hx]

end ListCore

end Deemon.Json
