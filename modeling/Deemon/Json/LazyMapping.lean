import Deemon.Json.Tokens
import Deemon.Lib.Run

/-!
# Lazy mappings

A `_JsonMapping` keeps its JSON text and parses the members as they are asked for. Six functions walk over it: the three
steps of its iterator and `peek`, the enumeration of all pairs, and `size`.
-/

namespace Deemon.Json

open Deemon.Run

variable {Pos Str Num : Type}

/-! ### Values -/

/-- The objects that JSON values become. Those of objects and arrays are lazy: they hold the position behind the opening
bracket. -/
inductive Obj (Pos Str Num : Type) where
  | none
  | bool (b : Bool)
  | number (x : Num)
  | string (s : Str)
  | mapping (parser : Pos)
  | sequence (parser : Pos)

section Parsing

variable (core : TokenCore Pos Str Num)

/-- `DeeJsonMapping_New` and `DeeJsonSequence_New`: `None` for a thrown error. -/
def lazyNew (opening : Tok) (new : Pos → Obj Pos Str Num) (self : Pos)
    (mustAdvanceParser : Bool) : Option (Obj Pos Str Num × Pos) :=
  if (core.yield self).1 ≠ opening then none
  else if !mustAdvanceParser then some (new (core.yield self).2, self)
  else if (core.next self).1 = .errorSyntax then none
  else some (new (core.yield self).2, (core.next self).2)

/-- `DeeJsonMapping_New`. -/
def deeJsonMappingNew : Pos → Bool → Option (Obj Pos Str Num × Pos) :=
  lazyNew core .object .mapping

/-- `DeeJsonSequence_New`. -/
def deeJsonSequenceNew : Pos → Bool → Option (Obj Pos Str Num × Pos) :=
  lazyNew core .array .sequence

/-- `null`, `true` and `false`. -/
def parseConstant (tok : Tok) (result : Obj Pos Str Num) (self : Pos)
    (mustAdvanceParser : Bool) : Option (Obj Pos Str Num × Pos) :=
  if !mustAdvanceParser then some (result, self)
  else if (core.yield self).1 ≠ tok then none
  else some (result, (core.yield self).2)

/-- `DeeJson_ParseObject`. -/
def deeJsonParseObject (self : Pos) (mustAdvanceParser : Bool) : Option (Obj Pos Str Num × Pos) :=
  match core.peeknext self with
  | .string => (core.printstring self).map fun r => (.string r.1, r.2)
  | .number => (core.parseNumber self).map fun r => (.number r.1, r.2)
  | .object => deeJsonMappingNew core self mustAdvanceParser
  | .array => deeJsonSequenceNew core self mustAdvanceParser
  | .null => parseConstant core .null .none self mustAdvanceParser
  | .true => parseConstant core .true (.bool true) self mustAdvanceParser
  | .false => parseConstant core .false (.bool false) self mustAdvanceParser
  | _ => none

/-! ### The iterator -/

/-- `goto err_syntax` unless the condition holds. -/
def expect (p : Prop) [Decidable p] : Option Unit := if p then some () else none

/-- The key of a member and the colon behind it. -/
def parseKey (self : Pos) : Option (Str × Pos) := do
  let key ← core.printstring self
  expect ((core.yield key.2).1 = .colon)
  some (key.1, (core.yield key.2).2)

/-- The comma behind a value; a closing brace is left where it is. -/
def trailingComma (temp : Pos) : Option Pos :=
  if (core.yield temp).1 = .comma then some (core.yield temp).2
  else if (core.yield temp).1 = .endObject then some temp
  else none

/-- `jmapiter_mh_iter_peek`: `some none` for `ITER_DONE`, and `none` for a thrown error. -/
def jmapiterMhIterPeek (self : Pos) : Option (Option (Str × Obj Pos Str Num)) :=
  if core.peeknext self = .endArray then some none
  else do
    let key ← parseKey core self
    let value ← deeJsonParseObject core key.2 false
    some (some (key.1, value.1))

/-- `jmapiter_nextpair`, without another thread that moves the position; it is not moved at the end. -/
def jmapiterNextpair (self : Pos) : Option (Option ((Str × Obj Pos Str Num) × Pos)) :=
  if core.peeknext self = .endObject then some none
  else do
    let key ← parseKey core self
    let value ← deeJsonParseObject core key.2 true
    let pos ← trailingComma core value.2
    some (some ((key.1, value.1), pos))

/-- `jmapiter_nextkey`. -/
def jmapiterNextkey (self : Pos) : Option (Option (Str × Pos)) :=
  if core.peeknext self = .endArray then some none
  else do
    let key ← parseKey core self
    expect ((core.next key.2).1 ≠ .errorSyntax)
    some (some (key.1, (core.next key.2).2))

/-- `jmapiter_nextvalue`. -/
def jmapiterNextvalue (self : Pos) : Option (Option (Obj Pos Str Num × Pos)) :=
  if core.peeknext self = .endArray then some none
  else do
    expect ((core.yield self).1 = .string)
    let key := (core.yield self).2
    expect ((core.yield key).1 = .colon)
    let value ← deeJsonParseObject core (core.yield key).2 true
    let pos ← trailingComma core value.2
    some (some (value.1, pos))

/-- `jmapiter_init`: the position of an iterator over a mapping. -/
def jmapiterInit (jmParser : Pos) : Option Pos :=
  if (core.rewind jmParser).1 = .object then some (core.rewind jmParser).2 else none

/-! ### The mapping -/

/-- `jmap_init`, from the start of the text. -/
def jmapInit (start : Pos) : Option Pos :=
  if (core.yield start).1 = .array then some (core.yield start).2 else none

/-- `jmap_bool`. -/
def jmapBool (jmParser : Pos) : Option Bool := do
  if core.peeknext jmParser ≠ .endObject then
    expect (core.peeknext jmParser ≠ .errorSyntax)
    some true
  else if core.peekprev jmParser = .object then some false
  else
    expect (core.peekprev jmParser ≠ .errorSyntax)
    some true

/-- One round of `jmap_size`. -/
def sizeRound (s : ℕ × Pos) : Option (Step (ℕ × Pos) (Option ℕ)) :=
  match (core.next s.2).1 with
  | .errorOk => some (.next (s.1 + 1, (core.next s.2).2))
  | .errorNoobj => some (.done (some (s.1 + 1)))
  | .errorSyntax => some (.done none)

/-- `jmap_size`; the inner `none` stands for a thrown error. -/
def jmapSize (fuel : ℕ) (jmParser : Pos) : Option (Option ℕ) :=
  if (core.rewind jmParser).1 ≠ .object then some none
  else if core.peeknext (core.rewind jmParser).2 = .endObject then some (some 0)
  else if core.peeknext (core.rewind jmParser).2 = .errorSyntax then some none
  else loop (sizeRound core) fuel (0, (core.rewind jmParser).2)

variable {σ : Type}

/-- The state of `jmap_foreach_pair`: the position, the sum of what `proc` has returned, and the argument of `proc`. -/
structure Foreach (Pos σ : Type) where
  parser : Pos
  result : ℤ
  arg : σ

/-- One round of `jmap_foreach_pair`. -/
def foreachRound (proc : σ → Str → Obj Pos Str Num → ℤ × σ) (s : Foreach Pos σ) :
    Option (Step (Foreach Pos σ) (Option ℤ × σ)) :=
  match parseKey core s.parser with
  | none => some (.done (none, s.arg))
  | some key =>
    match deeJsonParseObject core key.2 true with
    | none => some (.done (none, s.arg))
    | some value =>
      let temp := proc s.arg key.1 value.1
      if temp.1 < 0 then some (.done (some temp.1, temp.2))
      else if (core.yield value.2).1 = .comma then some (.next ⟨(core.yield value.2).2, s.result + temp.1, temp.2⟩)
      else if (core.yield value.2).1 = .endObject then some (.done (some (s.result + temp.1), temp.2))
      else some (.done (none, temp.2))

/-- `jmap_foreach_pair`. -/
def jmapForeachPair (proc : σ → Str → Obj Pos Str Num → ℤ × σ) (fuel : ℕ)
    (jmParser : Pos) (arg : σ) : Option (Option ℤ × σ) :=
  if (core.rewind jmParser).1 ≠ .object then some (none, arg)
  else if core.peeknext (core.rewind jmParser).2 = .endObject then some (some 0, arg)
  else loop (foreachRound core proc) fuel ⟨(core.rewind jmParser).2, 0, arg⟩

/-! ### What they are for -/

/-- The object of the value at token `i`. -/
def JsonText.obj (behind : ℕ → Pos) (i : ℕ) : JsonText Str Num .value → Obj Pos Str Num
  | .null => .none
  | .bool b => .bool b
  | .number x => .number x
  | .string s => .string s
  | .array _ => .sequence (behind i)
  | .object _ => .mapping (behind i)

/-- The pairs of some members, the first of which starts at token `i`. -/
def JsonText.pairs (behind : ℕ → Pos) : ∀ {part : Part}, ℕ → JsonText Str Num part → List (Str × Obj Pos Str Num)
  | _, i, .member key value rest =>
    (key, value.obj behind (i + 2)) :: rest.pairs behind (i + 2 + value.tokens.length + 1)
  | _, _, _ => []

/-- How many members there are. -/
def JsonText.count : ∀ {part : Part}, JsonText Str Num part → ℕ
  | _, .member _ _ rest => rest.count + 1
  | _, _ => 0

/-- The step functions of an iterator. -/
inductive StepKind where
  | pair
  | key
  | value

/-- What a step gives. -/
inductive Yielded (Pos Str Num : Type) where
  | pair (x : Str × Obj Pos Str Num)
  | key (k : Str)
  | value (v : Obj Pos Str Num)
  | exhausted
  | errorSyntax

/-- What a step gives, and the position behind it. -/
def iterStep (self : Pos) : StepKind → Yielded Pos Str Num × Pos
  | .pair =>
    match jmapiterNextpair core self with
    | none => (.errorSyntax, self)
    | some none => (.exhausted, self)
    | some (some r) => (.pair r.1, r.2)
  | .key =>
    match jmapiterNextkey core self with
    | none => (.errorSyntax, self)
    | some none => (.exhausted, self)
    | some (some r) => (.key r.1, r.2)
  | .value =>
    match jmapiterNextvalue core self with
    | none => (.errorSyntax, self)
    | some none => (.exhausted, self)
    | some (some r) => (.value r.1, r.2)

/-- What some steps give, one after the other. -/
def iterSteps (core : TokenCore Pos Str Num) : Pos → List StepKind → List (Yielded Pos Str Num)
  | _, [] => []
  | self, kind :: kinds => (iterStep core self kind).1 :: iterSteps core (iterStep core self kind).2 kinds

/-- What a step should give of a pair. -/
def StepKind.of (x : Str × Obj Pos Str Num) : StepKind → Yielded Pos Str Num
  | .pair => .pair x
  | .key => .key x.1
  | .value => .value x.2

/-- What some steps should give. -/
def yields : List (Str × Obj Pos Str Num) → List StepKind → List (Yielded Pos Str Num)
  | _, [] => []
  | [], _ :: kinds => .exhausted :: yields [] kinds
  | x :: xs, kind :: kinds => kind.of x :: yields xs kinds

/-- The steps of the allowed kinds give the pairs in a list. -/
def StepsGive (allowed : StepKind → Prop) (p : Pos) (pairs : List (Str × Obj Pos Str Num)) : Prop :=
  ∀ kinds : List StepKind, (∀ kind ∈ kinds, allowed kind) → iterSteps core p kinds = yields pairs kinds

section Agrees

variable (members : JsonText Str Num .members) (At : Pos → ℕ → Prop) (behind : ℕ → Pos)

/-- A position in the object, outside of the brackets in it: where the parser of a mapping may be. -/
def Inside (p : Pos) : Prop := ∃ i, At p i ∧ openStack [] 0 ((JsonText.object members).tokens.take i) = [0]

/-- Steps of the allowed kinds give what they should, from the start on. -/
def StepsAgree (allowed : StepKind → Prop) : Prop :=
  ∀ jmParser, Inside members At jmParser → ∃ p, jmapiterInit core jmParser = some p ∧
    StepsGive core allowed p (members.pairs behind 1)

/-- The members that are left at a position. -/
inductive Rest : ℕ → JsonText Str Num .members → Prop where
  | start : Rest 1 members
  | skip {i : ℕ} {key : Str} {value : JsonText Str Num .value} {rest : JsonText Str Num .members}
      (h : Rest i (.member key value rest)) :
      Rest (i + 2 + value.tokens.length + if rest.isEnd then 0 else 1) rest

/-- `peek` gives the next pair at each position. -/
def PeeksAgree : Prop :=
  ∀ p i rest, Rest members i rest → At p i → jmapiterMhIterPeek core p = some (rest.pairs behind i).head?

/-- All pairs are enumerated. -/
def ForeachAgrees : Prop :=
  ∀ jmParser, Inside members At jmParser → ∀ fuel, members.count < fuel →
    jmapForeachPair core (fun seen key value => (1, seen ++ [(key, value)])) fuel jmParser [] =
      some (some (members.count : ℤ), members.pairs behind 1)

def SizeAgrees : Prop :=
  ∀ jmParser, Inside members At jmParser → ∀ fuel, members.count < fuel →
    jmapSize core fuel jmParser = some (some members.count)

def BoolAgrees : Prop :=
  ∀ jmParser, Inside members At jmParser → jmapBool core jmParser = some (decide (members.count ≠ 0))

/-- A mapping can be made of the text, and the functions on mappings agree. -/
structure LazyAgrees (start : Pos) : Prop where
  constructed : ∃ p, jmapInit core start = some p ∧ At p 1
  steps : StepsAgree core members At behind fun _ => True
  peeks : PeeksAgree core members At behind
  foreach : ForeachAgrees core members At behind
  size : SizeAgrees core members At
  bool : BoolAgrees core members At

end Agrees

end Parsing

/-- A value in brackets. -/
def JsonText.isNested : JsonText Str Num .value → Bool
  | .array _ => true
  | .object _ => true
  | _ => false

/-- Only the last member has a value in brackets. -/
def JsonText.NestedLast : ∀ {part : Part}, JsonText Str Num part → Prop
  | _, .member _ value rest => (value.isNested = true → rest.isEnd = true) ∧ rest.NestedLast
  | _, _ => True

/-! ### Members -/

section Members

variable {core : TokenCore Pos Str Num} {toks ts : List (Token Str Num)} {At : Pos → ℕ → Prop} {behind : ℕ → Pos}
  {p : Pos} {i : ℕ} {t : Token Str Num} {key : Str} {value : JsonText Str Num .value} {rest : JsonText Str Num .members}

/-- The token at a position, and what is behind it. -/
theorem drop_split (h : toks.drop i = t :: ts) : toks[i]? = some t ∧ toks.drop (i + 1) = ts := by
  constructor
  · rw [← List.head?_drop, h, List.head?_cons]
  · rw [← List.drop_drop, h, List.drop_one, List.tail_cons]

theorem drop_append_split {front : List (Token Str Num)} (h : toks.drop i = front ++ ts) :
    toks.drop (i + front.length) = ts := by
  rw [← List.drop_drop, h, List.drop_left]

theorem lt_of_getElem? (h : toks[i]? = some t) : i < toks.length := (List.getElem?_eq_some_iff.mp h).1

/-- Where the end of the level is behind a value. -/
theorem levelEnd_value (hdrop : toks.drop i = value.tokens ++ ts) {n : ℕ} {tok : Tok} (hts : levelEnd 0 ts = some (n, tok)) :
    levelEnd 0 (toks.drop i) = some (n + value.tokens.length, tok) := by
  rw [hdrop, levelEnd_tokens value (.inl rfl), hts]
  rfl

/-- The tokens behind a member. -/
theorem tail_end (rest : JsonText Str Num .members) :
    (rest.isEnd = true ∧ rest.tail ++ [.mark .endObject] = [.mark .endObject]) ∨
      ∃ next value others, rest = .member next value others ∧ rest.isEnd = false ∧
        rest.tail ++ [.mark .endObject] = .mark .comma :: (rest.tokens ++ [.mark .endObject]) := by
  cases rest with
  | noMembers => exact .inl ⟨rfl, rfl⟩
  | member next value others => exact .inr ⟨next, value, others, rfl, rfl, rfl⟩

/-- A member is at `i`: its key, its value, and what follows. -/
theorem member_split (hdrop : toks.drop i = (JsonText.member key value rest).tokens ++ [.mark .endObject]) :
    toks.drop i = .string key :: .mark .colon :: (value.tokens ++ (rest.tail ++ [.mark .endObject])) ∧
      toks.drop (i + 2) = value.tokens ++ (rest.tail ++ [.mark .endObject]) ∧
      toks.drop (i + 2 + value.tokens.length + if rest.isEnd then 0 else 1) = rest.tokens ++ [.mark .endObject] := by
  have hall : toks.drop i = .string key :: .mark .colon :: (value.tokens ++ (rest.tail ++ [.mark .endObject])) := by
    rw [hdrop, ← List.append_assoc]
    rfl
  have hvalue := (drop_split (drop_split hall).2).2
  have hbehind := drop_append_split hvalue
  refine ⟨hall, hvalue, ?_⟩
  rcases tail_end rest with ⟨hend, htail⟩ | ⟨_, _, _, rfl, hmore, htail⟩
  · rw [hend, if_pos rfl, Nat.add_zero, hbehind, htail]
    cases rest with
    | noMembers => rfl
    | member => cases hend
  · rw [hmore, if_neg Bool.false_ne_true]
    rw [htail] at hbehind
    exact (drop_split hbehind).2

variable (h : Documented core toks At behind)
include h

/-- Reading a token. -/
theorem Documented.yield_eq (hp : At p i) (hdrop : toks.drop i = t :: ts) :
    core.yield p = (t.tok, behind i) ∧ core.peeknext p = t.tok ∧ At (behind i) (i + 1) :=
  ⟨h.yield p i t hp (drop_split hdrop).1, h.peeknext p i t hp (drop_split hdrop).1,
    h.at_behind i (lt_of_getElem? (drop_split hdrop).1)⟩

theorem parseKey_eq (hp : At p i) (hdrop : toks.drop i = .string key :: .mark .colon :: ts) :
    parseKey core p = some (key, behind (i + 1)) ∧ At (behind (i + 1)) (i + 2) := by
  obtain ⟨hkey, hcolon⟩ := drop_split hdrop
  obtain ⟨hyield, -, hat⟩ := h.yield_eq (h.at_behind i (lt_of_getElem? hkey)) hcolon
  unfold parseKey
  rw [h.printstring p i key hp hkey, some_bind, hyield]
  exact ⟨rfl, hat⟩

/-- A bracket at the start of a value, and the way behind it. -/
theorem lazyNew_eq {opening : Tok} (new : Pos → Obj Pos Str Num) (hp : At p i)
    (hdrop : toks.drop i = .mark opening :: ts) {n : ℕ} {tok : Tok} (hend : levelEnd 0 (toks.drop i) = some (n, tok)) :
    lazyNew core opening new p false = some (new (behind i), p) ∧
      ∃ q, lazyNew core opening new p true = some (new (behind i), q) ∧
        At q (i + n + if tok = .comma then 1 else 0) := by
  obtain ⟨hyield, -, -⟩ := h.yield_eq hp hdrop
  have hopening : (core.yield p).1 = opening := congrArg Prod.fst hyield
  have hpos : (core.yield p).2 = behind i := congrArg Prod.snd hyield
  unfold lazyNew
  rw [hopening, hpos, if_neg (fun hne : opening ≠ opening => hne rfl)]
  refine ⟨rfl, (core.next p).2, ?_⟩
  by_cases htok : tok = .comma
  · subst htok
    obtain ⟨hok, hat⟩ := h.next_comma p i n hp hend
    rw [if_neg (fun hne : opening ≠ opening => hne rfl), hok]
    exact ⟨rfl, hat⟩
  · obtain ⟨hok, hat⟩ := h.next_end p i n tok hp hend htok
    rw [if_neg (fun hne : opening ≠ opening => hne rfl), hok, if_neg htok]
    exact ⟨rfl, hat⟩

theorem parseConstant_eq {tok : Tok} (result : Obj Pos Str Num) (hp : At p i)
    (hdrop : toks.drop i = .mark tok :: ts) :
    parseConstant core tok result p false = some (result, p) ∧
      parseConstant core tok result p true = some (result, behind i) := by
  obtain ⟨hyield, -, -⟩ := h.yield_eq hp hdrop
  have htok : (core.yield p).1 = tok := congrArg Prod.fst hyield
  have hpos : (core.yield p).2 = behind i := congrArg Prod.snd hyield
  unfold parseConstant
  rw [htok, hpos, if_neg (fun hne : tok ≠ tok => hne rfl)]
  exact ⟨rfl, rfl⟩

/-- The object of a value. With `must_advance_parser`, the position goes behind the value, and also behind the comma
that follows a value in brackets. -/
theorem parseObject_eq (hp : At p i) (hdrop : toks.drop i = value.tokens ++ ts)
    {tok : Tok} (hts : levelEnd 0 ts = some (0, tok)) :
    (∃ q, deeJsonParseObject core p false = some (value.obj behind i, q)) ∧
      ∃ q, deeJsonParseObject core p true = some (value.obj behind i, q) ∧
        At q (i + value.tokens.length + if value.isNested = true ∧ tok = .comma then 1 else 0) := by
  have hend := levelEnd_value hdrop hts
  rw [Nat.zero_add] at hend
  unfold deeJsonParseObject
  cases value with
  | null =>
    obtain ⟨hfalse, htrue⟩ := parseConstant_eq h .none hp hdrop
    obtain ⟨-, hpeek, hat⟩ := h.yield_eq hp hdrop
    rw [hpeek]
    exact ⟨⟨_, hfalse⟩, _, htrue, hat⟩
  | bool b =>
    obtain ⟨-, hpeek, hat⟩ := h.yield_eq hp hdrop
    rw [hpeek]
    cases b with
    | false =>
      obtain ⟨hfalse, htrue⟩ := parseConstant_eq h (.bool false) hp hdrop
      exact ⟨⟨_, hfalse⟩, _, htrue, hat⟩
    | true =>
      obtain ⟨hfalse, htrue⟩ := parseConstant_eq h (.bool true) hp hdrop
      exact ⟨⟨_, hfalse⟩, _, htrue, hat⟩
  | number x =>
    obtain ⟨-, hpeek, hat⟩ := h.yield_eq hp hdrop
    rw [hpeek]
    dsimp only [Token.tok]
    rw [h.parseNumber p i x hp (drop_split hdrop).1]
    exact ⟨⟨_, rfl⟩, _, rfl, hat⟩
  | string s =>
    obtain ⟨-, hpeek, hat⟩ := h.yield_eq hp hdrop
    rw [hpeek]
    dsimp only [Token.tok]
    rw [h.printstring p i s hp (drop_split hdrop).1]
    exact ⟨⟨_, rfl⟩, _, rfl, hat⟩
  | array elems =>
    obtain ⟨-, hpeek, -⟩ := h.yield_eq hp hdrop
    obtain ⟨hfalse, q, htrue, hat⟩ := lazyNew_eq h .sequence hp hdrop hend
    rw [hpeek]
    refine ⟨⟨_, hfalse⟩, q, htrue, ?_⟩
    simpa [JsonText.isNested] using hat
  | object members =>
    obtain ⟨-, hpeek, -⟩ := h.yield_eq hp hdrop
    obtain ⟨hfalse, q, htrue, hat⟩ := lazyNew_eq h .mapping hp hdrop hend
    rw [hpeek]
    refine ⟨⟨_, hfalse⟩, q, htrue, ?_⟩
    simpa [JsonText.isNested] using hat

/-- Parsing the value of a member: the token behind it, or, behind a value in brackets, already the next key. -/
theorem memberValue_eq (hp : At p i) (hdrop : toks.drop i = value.tokens ++ (rest.tail ++ [.mark .endObject])) :
    (∃ q, deeJsonParseObject core p false = some (value.obj behind i, q)) ∧
      ∃ q, deeJsonParseObject core p true = some (value.obj behind i, q) ∧
        ((rest.isEnd = true ∧ (core.yield q).1 = .endObject ∧ At q (i + value.tokens.length)) ∨
          (rest.isEnd = false ∧ value.isNested = false ∧ (core.yield q).1 = .comma ∧
            At (core.yield q).2 (i + value.tokens.length + 1)) ∨
          (rest.isEnd = false ∧ value.isNested = true ∧ (core.yield q).1 = .string)) := by
  have hbehind := drop_append_split hdrop
  rcases tail_end rest with ⟨hend, htail⟩ | ⟨next, other, others, rfl, hmore, htail⟩
  · rw [htail] at hdrop hbehind
    obtain ⟨hfalse, q, htrue, hq⟩ := parseObject_eq h hp hdrop rfl
    rw [if_neg (fun hcomma => Tok.noConfusion hcomma.2), Nat.add_zero] at hq
    obtain ⟨hyield, -, -⟩ := h.yield_eq hq hbehind
    exact ⟨hfalse, q, htrue, .inl ⟨hend, congrArg Prod.fst hyield, hq⟩⟩
  · rw [htail] at hdrop hbehind
    obtain ⟨hfalse, q, htrue, hq⟩ := parseObject_eq h hp hdrop rfl
    refine ⟨hfalse, q, htrue, .inr ?_⟩
    cases hnested : value.isNested with
    | false =>
      rw [if_neg (fun hcomma => Bool.false_ne_true (hnested.symm.trans hcomma.1)), Nat.add_zero] at hq
      obtain ⟨hyield, -, hat⟩ := h.yield_eq hq hbehind
      rw [hyield]
      exact .inl ⟨hmore, rfl, rfl, hat⟩
    | true =>
      rw [if_pos ⟨hnested, rfl⟩] at hq
      obtain ⟨hyield, -, -⟩ := h.yield_eq hq (drop_split hbehind).2
      exact .inr ⟨hmore, rfl, congrArg Prod.fst hyield⟩

/-- Stepping over the value and the comma behind it. -/
theorem trailing_eq (hp : At p i) (hdrop : toks.drop i = value.tokens ++ (rest.tail ++ [.mark .endObject])) :
    ∃ q, deeJsonParseObject core p true = some (value.obj behind i, q) ∧
      ((value.isNested = true → rest.isEnd = true) → ∃ q', trailingComma core q = some q' ∧
        At q' (i + value.tokens.length + if rest.isEnd then 0 else 1)) ∧
      (¬(value.isNested = true → rest.isEnd = true) → trailingComma core q = none) := by
  obtain ⟨-, q, htrue, hcases⟩ := memberValue_eq h hp hdrop
  refine ⟨q, htrue, ?_⟩
  unfold trailingComma
  rcases hcases with ⟨hend, htok, hat⟩ | ⟨hmore, hflat, htok, hat⟩ | ⟨hmore, hnested, htok⟩
  · rw [htok, hend]
    exact ⟨fun _ => ⟨q, rfl, hat⟩, fun hgoes => absurd (fun _ => rfl) hgoes⟩
  · rw [htok, hmore, hflat]
    exact ⟨fun _ => ⟨_, rfl, hat⟩, fun hgoes => absurd (fun hcontra => absurd hcontra Bool.false_ne_true) hgoes⟩
  · rw [htok, hmore, hnested]
    exact ⟨fun hgoes => absurd (hgoes rfl) Bool.false_ne_true, fun _ => rfl⟩

/-- The closing brace is no key. -/
theorem parseKey_end (hp : At p i) (hdrop : toks.drop i = [.mark .endObject]) :
    core.peeknext p = .endObject ∧ (core.yield p).1 = .endObject ∧ parseKey core p = none := by
  obtain ⟨hyield, hpeek, -⟩ := h.yield_eq hp hdrop
  refine ⟨hpeek, congrArg Prod.fst hyield, ?_⟩
  unfold parseKey
  rw [h.printstring_other p i _ hp (drop_split hdrop).1 Tok.noConfusion]
  rfl

/-- At the end, `nextpair` alone knows that there are no more members. -/
theorem iterStep_end (hp : At p i) (hdrop : toks.drop i = [.mark .endObject]) :
    iterStep core p .pair = (.exhausted, p) ∧ iterStep core p .key = (.errorSyntax, p) ∧
      iterStep core p .value = (.errorSyntax, p) ∧ jmapiterMhIterPeek core p = none := by
  obtain ⟨hpeek, htok, hkey⟩ := parseKey_end h hp hdrop
  have hpair : jmapiterNextpair core p = some none := if_pos hpeek
  have hnextkey : jmapiterNextkey core p = none := by
    unfold jmapiterNextkey
    rw [hpeek, if_neg Tok.noConfusion, hkey]
    rfl
  have hnextvalue : jmapiterNextvalue core p = none := by
    unfold jmapiterNextvalue
    rw [hpeek, if_neg Tok.noConfusion, htok]
    rfl
  unfold iterStep
  rw [hpair, hnextkey, hnextvalue]
  refine ⟨rfl, rfl, rfl, ?_⟩
  unfold jmapiterMhIterPeek
  rw [hpeek, if_neg Tok.noConfusion, hkey]
  rfl

section Member

variable (hp : At p i) (hdrop : toks.drop i = (JsonText.member key value rest).tokens ++ [.mark .endObject])
include hp hdrop

/-- The key at the start of a member. -/
theorem memberKey :
    core.peeknext p = .string ∧ parseKey core p = some (key, behind (i + 1)) ∧ At (behind (i + 1)) (i + 2) := by
  obtain ⟨hall, -, -⟩ := member_split hdrop
  exact ⟨(h.yield_eq hp hall).2.1, parseKey_eq h hp hall⟩

/-- The next key, with `libjson_parser_next` over the value. -/
theorem iterStep_key :
    ∃ q, iterStep core p .key = (.key key, q) ∧
      At q (i + 2 + value.tokens.length + if rest.isEnd then 0 else 1) := by
  obtain ⟨hpeek, hkey, hat⟩ := memberKey h hp hdrop
  obtain ⟨-, hvalue, -⟩ := member_split hdrop
  have hnext : (core.next (behind (i + 1))).1 ≠ .errorSyntax ∧
      At (core.next (behind (i + 1))).2 (i + 2 + value.tokens.length + if rest.isEnd then 0 else 1) := by
    rcases tail_end rest with ⟨hend, htail⟩ | ⟨_, _, _, rfl, hmore, htail⟩
    · rw [htail] at hvalue
      obtain ⟨hok, hq⟩ := h.next_end _ _ _ .endObject hat (levelEnd_value hvalue rfl) Tok.noConfusion
      rw [hok, hend]
      exact ⟨Status.noConfusion, by rwa [Nat.zero_add] at hq⟩
    · rw [htail] at hvalue
      obtain ⟨hok, hq⟩ := h.next_comma _ _ _ hat (levelEnd_value hvalue rfl)
      rw [hok, hmore]
      exact ⟨Status.noConfusion, by rwa [Nat.zero_add] at hq⟩
  have hrun : jmapiterNextkey core p = some (some (key, (core.next (behind (i + 1))).2)) := by
    unfold jmapiterNextkey expect
    rw [hpeek, if_neg Tok.noConfusion, hkey, some_bind, if_pos hnext.1]
    rfl
  refine ⟨_, ?_, hnext.2⟩
  unfold iterStep
  rw [hrun]

/-- The next pair or value, unless one in brackets is followed by another member. -/
theorem iterStep_parsed :
    ((value.isNested = true → rest.isEnd = true) →
      ∃ q, At q (i + 2 + value.tokens.length + if rest.isEnd then 0 else 1) ∧
        iterStep core p .pair = (.pair (key, value.obj behind (i + 2)), q) ∧
        iterStep core p .value = (.value (value.obj behind (i + 2)), q)) ∧
      (¬(value.isNested = true → rest.isEnd = true) →
        iterStep core p .pair = (.errorSyntax, p) ∧ iterStep core p .value = (.errorSyntax, p)) := by
  obtain ⟨hpeek, hkey, hat⟩ := memberKey h hp hdrop
  obtain ⟨hall, hvalue, -⟩ := member_split hdrop
  obtain ⟨q, hparse, hgoes, hstops⟩ := trailing_eq h hat hvalue
  obtain ⟨hstring, -, hatColon⟩ := h.yield_eq hp hall
  obtain ⟨hcolon, -, -⟩ := h.yield_eq hatColon (drop_split hall).2
  have hpair : jmapiterNextpair core p =
      (trailingComma core q).map fun pos => some ((key, value.obj behind (i + 2)), pos) := by
    unfold jmapiterNextpair
    rw [hpeek, if_neg Tok.noConfusion, hkey, some_bind, hparse, some_bind]
    cases trailingComma core q <;> rfl
  have hnextvalue : jmapiterNextvalue core p =
      (trailingComma core q).map fun pos => some (value.obj behind (i + 2), pos) := by
    unfold jmapiterNextvalue expect
    rw [hpeek, if_neg Tok.noConfusion, show (core.yield p).1 = .string from congrArg Prod.fst hstring, if_pos rfl,
      some_bind, show (core.yield p).2 = behind i from congrArg Prod.snd hstring]
    dsimp only
    rw [show (core.yield (behind i)).1 = .colon from congrArg Prod.fst hcolon, if_pos rfl, some_bind, hcolon, hparse,
      some_bind]
    cases trailingComma core q <;> rfl
  unfold iterStep
  rw [hpair, hnextvalue]
  constructor
  · intro hflat
    obtain ⟨q', htrail, hq'⟩ := hgoes hflat
    rw [htrail]
    exact ⟨q', hq', rfl, rfl⟩
  · intro hnested
    rw [hstops hnested]
    exact ⟨rfl, rfl⟩

end Member

end Members

/-! ### Whole runs -/

section Runs

variable {core : TokenCore Pos Str Num} {toks : List (Token Str Num)} {At : Pos → ℕ → Prop} {behind : ℕ → Pos}
  {p : Pos} {i : ℕ} {members : JsonText Str Num .members}

/-- The pairs are the same wherever the end is. -/
theorem pairs_rest {key : Str} {value : JsonText Str Num .value} {rest : JsonText Str Num .members} :
    (JsonText.member key value rest).pairs behind i =
      (key, value.obj behind (i + 2)) ::
        rest.pairs behind (i + 2 + value.tokens.length + if rest.isEnd then 0 else 1) := by
  cases rest <;> rfl

variable {allowed : StepKind → Prop} {kind : StepKind} {q : Pos} {x : Str × Obj Pos Str Num}
  {xs : List (Str × Obj Pos Str Num)}

theorem StepsGive.follow (h : StepsGive core allowed p (x :: xs)) (hkind : allowed kind)
    (hstep : (iterStep core p kind).2 = q) : StepsGive core allowed q xs := by
  intro kinds hkinds
  have hall := h (kind :: kinds) (List.forall_mem_cons.mpr ⟨hkind, hkinds⟩)
  rw [iterSteps, yields, hstep] at hall
  exact (List.cons.inj hall).2

/-- No list of pairs makes an error right. -/
theorem StepsGive.no_error (h : StepsGive core allowed p xs) (hkind : allowed kind)
    (hstep : (iterStep core p kind).1 = .errorSyntax) : False := by
  have hall := h [kind] (List.forall_mem_singleton.mpr hkind)
  rw [iterSteps, hstep] at hall
  cases xs with
  | nil => cases (List.cons.inj hall).1
  | cons x xs => cases kind <;> cases (List.cons.inj hall).1

section Steps

variable (h : Documented core toks At behind) (hp : At p i) (hdrop : toks.drop i = members.tokens ++ [.mark .endObject])
include h hp hdrop

/-- Steps with `nextpair` only give all pairs exactly when only the last value is in brackets. -/
theorem stepsGive_pair : StepsGive core (· = .pair) p (members.pairs behind i) ↔ members.NestedLast := by
  induction members using JsonText.members_induct generalizing p i with
  | noMembers =>
    refine iff_of_true (fun kinds hkinds => ?_) trivial
    obtain ⟨hpair, -⟩ := iterStep_end h hp hdrop
    induction kinds with
    | nil => rfl
    | cons kind kinds ih =>
      obtain ⟨rfl, hothers⟩ := List.forall_mem_cons.mp hkinds
      rw [iterSteps, hpair, ih hothers]
      rfl
  | member key value rest ih =>
    obtain ⟨hgoes, hstops⟩ := iterStep_parsed h hp hdrop
    by_cases hflat : value.isNested = true → rest.isEnd = true
    · obtain ⟨q, hq, hpair, -⟩ := hgoes hflat
      rw [pairs_rest, JsonText.NestedLast, and_iff_right hflat, ← ih hq (member_split hdrop).2.2]
      refine ⟨fun hgive => hgive.follow rfl (congrArg Prod.snd hpair), fun hgive kinds hkinds => ?_⟩
      cases kinds with
      | nil => rfl
      | cons kind kinds =>
        obtain ⟨rfl, hothers⟩ := List.forall_mem_cons.mp hkinds
        rw [iterSteps, hpair, hgive kinds hothers]
        rfl
    · exact iff_of_false (fun hgive => hgive.no_error rfl (congrArg Prod.fst (hstops hflat).1)) fun hlast => hflat hlast.1

/-- Steps with `nextkey` only end in an error. -/
theorem stepsGive_key : ¬StepsGive core (· = .key) p (members.pairs behind i) := by
  intro hgive
  induction members using JsonText.members_induct generalizing p i with
  | noMembers => exact hgive.no_error rfl (congrArg Prod.fst (iterStep_end h hp hdrop).2.1)
  | member key value rest ih =>
    obtain ⟨q, hkey, hq⟩ := iterStep_key h hp hdrop
    rw [pairs_rest] at hgive
    exact ih hq (member_split hdrop).2.2 (hgive.follow rfl (congrArg Prod.snd hkey))

/-- Steps with `nextvalue` only end in an error. -/
theorem stepsGive_value : ¬StepsGive core (· = .value) p (members.pairs behind i) := by
  intro hgive
  induction members using JsonText.members_induct generalizing p i with
  | noMembers => exact hgive.no_error rfl (congrArg Prod.fst (iterStep_end h hp hdrop).2.2.1)
  | member key value rest ih =>
    obtain ⟨hgoes, hstops⟩ := iterStep_parsed h hp hdrop
    by_cases hflat : value.isNested = true → rest.isEnd = true
    · obtain ⟨q, hq, -, hvalue⟩ := hgoes hflat
      rw [pairs_rest] at hgive
      exact ih hq (member_split hdrop).2.2 (hgive.follow rfl (congrArg Prod.snd hvalue))
    · exact hgive.no_error rfl (congrArg Prod.fst (hstops hflat).2)

end Steps

/-- Rewinding goes to the first member. -/
theorem rewind_inside (h : Documented core (JsonText.object members).tokens At behind) (hp : Inside members At p) :
    (core.rewind p).1 = .object ∧ At (core.rewind p).2 1 := by
  obtain ⟨i, hat, hstack⟩ := hp
  exact h.rewind p i 0 (.mark .object) hat (by rw [hstack]; rfl) rfl

/-- `libjson_parser_next` over a member. -/
theorem next_member {key : Str} {value : JsonText Str Num .value} {rest : JsonText Str Num .members}
    (h : Documented core toks At behind) (hp : At p i)
    (hdrop : toks.drop i = (JsonText.member key value rest).tokens ++ [.mark .endObject]) :
    (core.next p).1 = (if rest.isEnd then .errorNoobj else .errorOk) ∧
      At (core.next p).2 (i + 2 + value.tokens.length + if rest.isEnd then 0 else 1) := by
  obtain ⟨hall, -, -⟩ := member_split hdrop
  have hlevel : levelEnd 0 (toks.drop i) =
      shifted (value.tokens.length + 2) (levelEnd 0 (rest.tail ++ [.mark .endObject])) := by
    rw [hall, levelEnd_plain rfl, levelEnd_plain rfl, levelEnd_tokens value (.inl rfl), shifted_shifted, shifted_shifted]
  rcases tail_end rest with ⟨hend, htail⟩ | ⟨_, _, _, rfl, hmore, htail⟩
  · rw [htail] at hlevel
    obtain ⟨hok, hq⟩ := h.next_end p i _ .endObject hp hlevel Tok.noConfusion
    rw [hok, hend]
    refine ⟨rfl, ?_⟩
    rwa [Nat.zero_add, Nat.add_comm value.tokens.length 2, ← Nat.add_assoc] at hq
  · rw [htail] at hlevel
    obtain ⟨hok, hq⟩ := h.next_comma p i _ hp hlevel
    rw [hok, hmore]
    refine ⟨rfl, ?_⟩
    rwa [Nat.zero_add, Nat.add_comm value.tokens.length 2, ← Nat.add_assoc i] at hq

/-- The loop of `jmap_size`, in front of a member. -/
theorem sizeLoop_eq (h : Documented core toks At behind) (hp : At p i)
    (hdrop : toks.drop i = members.tokens ++ [.mark .endObject]) (hmore : members.isEnd = false) {fuel n : ℕ}
    (hfuel : members.count ≤ fuel) : loop (sizeRound core) fuel (n, p) = some (some (n + members.count)) := by
  induction members using JsonText.members_induct generalizing p i fuel n with
  | noMembers => cases hmore
  | member key value rest ih =>
    obtain ⟨hnext, hq⟩ := next_member h hp hdrop
    obtain ⟨fuel, rfl⟩ := Nat.exists_eq_succ_of_ne_zero (Nat.ne_zero_of_lt hfuel)
    cases hend : rest.isEnd with
    | true =>
      rw [hend, if_pos rfl] at hnext
      have hdone : sizeRound core (n, p) = some (.done (some (n + 1))) := by
        unfold sizeRound
        rw [hnext]
      rw [loop_done hdone]
      cases rest with
      | noMembers => rfl
      | member => cases hend
    | false =>
      rw [hend, if_neg Bool.false_ne_true] at hnext
      have hgo : sizeRound core (n, p) = some (.next (n + 1, (core.next p).2)) := by
        unfold sizeRound
        rw [hnext]
      rw [loop_next hgo, ih hq (member_split hdrop).2.2 hend (Nat.le_of_succ_le_succ hfuel), JsonText.count,
        Nat.add_assoc, Nat.add_comm 1]

theorem size_agrees (h : Documented core (JsonText.object members).tokens At behind) : SizeAgrees core members At := by
  intro p hp fuel hfuel
  obtain ⟨hobject, hat⟩ := rewind_inside h hp
  have hdrop : (JsonText.object members).tokens.drop 1 = members.tokens ++ [.mark .endObject] := rfl
  unfold jmapSize
  rw [if_neg (not_not_intro hobject)]
  cases members with
  | noMembers =>
    rw [(h.yield_eq hat hdrop).2.1]
    rfl
  | member key value rest =>
    rw [(memberKey h hat hdrop).1, if_neg Tok.noConfusion, if_neg Tok.noConfusion, sizeLoop_eq h hat hdrop rfl hfuel.le,
      Nat.zero_add]

/-- The loop of `jmap_foreach_pair`, in front of a member. -/
theorem foreachLoop_iff (h : Documented core toks At behind) (hp : At p i)
    (hdrop : toks.drop i = members.tokens ++ [.mark .endObject]) (hmore : members.isEnd = false) {fuel : ℕ} {n : ℤ}
    {seen : List (Str × Obj Pos Str Num)} (hfuel : members.count ≤ fuel) :
    loop (foreachRound core fun seen key value => (1, seen ++ [(key, value)])) fuel ⟨p, n, seen⟩ =
      some (some (n + members.count), seen ++ members.pairs behind i) ↔ members.NestedLast := by
  induction members using JsonText.members_induct generalizing p i fuel n seen with
  | noMembers => cases hmore
  | member key value rest ih =>
    obtain ⟨fuel, rfl⟩ := Nat.exists_eq_succ_of_ne_zero (Nat.ne_zero_of_lt hfuel)
    obtain ⟨-, hkey, hat⟩ := memberKey h hp hdrop
    obtain ⟨-, hvalue, hrest⟩ := member_split hdrop
    obtain ⟨-, q, hparse, hcases⟩ := memberValue_eq h hat hvalue
    have hround : foreachRound core (fun seen key value => (1, seen ++ [(key, value)])) ⟨p, n, seen⟩ =
        if (core.yield q).1 = .comma then
          some (.next ⟨(core.yield q).2, n + 1, seen ++ [(key, value.obj behind (i + 2))]⟩)
        else if (core.yield q).1 = .endObject then
          some (.done (some (n + 1), seen ++ [(key, value.obj behind (i + 2))]))
        else some (.done (none, seen ++ [(key, value.obj behind (i + 2))])) := by
      unfold foreachRound
      rw [hkey]
      dsimp only
      rw [hparse]
      exact if_neg (by decide)
    rw [JsonText.NestedLast]
    rcases hcases with ⟨hend, htok, -⟩ | ⟨hmore', hflat, htok, hq⟩ | ⟨hmore', hnested, htok⟩
    · -- the last member
      rw [htok, if_neg Tok.noConfusion, if_pos rfl] at hround
      rw [loop_done hround]
      cases rest with
      | noMembers => exact iff_of_true rfl ⟨fun _ => rfl, trivial⟩
      | member => cases hend
    · rw [htok, if_pos rfl] at hround
      rw [hmore', if_neg Bool.false_ne_true] at hrest
      have hiff := @ih _ _ hq hrest hmore' fuel (n + 1) (seen ++ [(key, value.obj behind (i + 2))])
        (Nat.le_of_succ_le_succ hfuel)
      rw [List.append_assoc, List.singleton_append, add_assoc, add_comm 1] at hiff
      rw [loop_next hround, hflat, and_iff_right (fun hcontra => absurd hcontra Bool.false_ne_true)]
      exact hiff
    · rw [htok, if_neg Tok.noConfusion, if_neg Tok.noConfusion] at hround
      rw [loop_done hround]
      refine iff_of_false (fun heq => ?_) fun hlast => ?_
      · cases congrArg Prod.fst (Option.some.inj heq)
      · exact absurd (hlast.1 hnested) (by rw [hmore']; exact Bool.false_ne_true)

theorem foreach_agrees_iff (h : Documented core (JsonText.object members).tokens At behind)
    (hinside : ∃ p, Inside members At p) : ForeachAgrees core members At behind ↔ members.NestedLast := by
  have hdrop : (JsonText.object members).tokens.drop 1 = members.tokens ++ [.mark .endObject] := rfl
  have hrun : ∀ p, Inside members At p → ∀ fuel, members.count < fuel →
      (jmapForeachPair core (fun seen key value => (1, seen ++ [(key, value)])) fuel p [] =
        some (some (members.count : ℤ), members.pairs behind 1) ↔ members.NestedLast) := by
    intro p hp fuel hfuel
    obtain ⟨hobject, hat⟩ := rewind_inside h hp
    unfold jmapForeachPair
    rw [if_neg (not_not_intro hobject)]
    cases members with
    | noMembers =>
      rw [(h.yield_eq hat hdrop).2.1]
      exact iff_of_true rfl trivial
    | member key value rest =>
      rw [(memberKey h hat hdrop).1, if_neg Tok.noConfusion, ← foreachLoop_iff h hat hdrop rfl hfuel.le, zero_add]
      rfl
  obtain ⟨p, hp⟩ := hinside
  exact ⟨fun hall => (hrun p hp _ (Nat.lt_succ_self _)).mp (hall p hp _ (Nat.lt_succ_self _)),
    fun hlast p hp fuel hfuel => (hrun p hp fuel hfuel).mpr hlast⟩

/-- A position in the object has a token on either side, and no bracket opens right in front of it but the first one. -/
theorem inside_split (hstack : openStack [] 0 ((JsonText.object members).tokens.take i) = [0]) :
    ∃ j prev t, i = j + 1 ∧ (JsonText.object members).tokens[j]? = some prev ∧
      (JsonText.object members).tokens[j + 1]? = some t ∧ (prev.tok = .object → j = 0) := by
  cases i with
  | zero => cases hstack
  | succ j =>
    have hlt : j + 1 < (JsonText.object members).tokens.length := by
      by_contra hge
      have hclosed := @openStack_tokens _ _ _ 0 [] [] (JsonText.object members)
      rw [List.append_nil] at hclosed
      rw [List.take_of_length_le (not_lt.mp hge), hclosed] at hstack
      cases hstack
    have hprev : j < (JsonText.object members).tokens.length := Nat.lt_of_succ_lt hlt
    refine ⟨j, _, _, rfl, List.getElem?_eq_getElem hprev, List.getElem?_eq_getElem hlt, fun hobject => ?_⟩
    rw [List.take_succ_eq_append_getElem hprev, openStack_append, openStack, hobject, openStack,
      List.length_take_of_le hprev.le] at hstack
    exact (Nat.zero_add j).symm.trans (List.cons.inj hstack).1

theorem bool_agrees (h : Documented core (JsonText.object members).tokens At behind) : BoolAgrees core members At := by
  rintro p ⟨i, hat, hstack⟩
  obtain ⟨j, prev, t, rfl, hprev, ht, hopens⟩ := inside_split hstack
  have hpeek := h.peeknext p _ t hat ht
  have hback := h.peekprev p j prev hat hprev
  have herror := ne_errorSyntax (JsonText.object members)
  unfold jmapBool expect
  rw [hpeek, hback, if_pos (herror t (List.mem_of_getElem? ht)), if_pos (herror prev (List.mem_of_getElem? hprev))]
  cases members with
  | noMembers =>
    -- `{}`: the position is between the two braces
    have hj : j = 0 := by
      have hlt : j + 1 < 2 := lt_of_getElem? ht
      omega
    subst hj
    cases ht
    cases hprev
    rfl
  | member key value rest =>
    by_cases hend : t.tok = .endObject
    · rw [if_neg (not_not_intro hend), if_neg]
      · rfl
      · intro hobject
        obtain rfl := hopens hobject
        cases ht
        cases hend
    · rw [if_pos hend]
      rfl

/-- The members that are left are those whose tokens follow. -/
theorem Rest.drop_eq {rest : JsonText Str Num .members} (h : Rest members i rest) :
    1 ≤ i ∧ (JsonText.object members).tokens.drop i = rest.tokens ++ [.mark .endObject] := by
  induction h with
  | start => exact ⟨le_rfl, rfl⟩
  | skip _ ih => exact ⟨by omega, (member_split ih.2).2.2⟩

theorem exists_rest_end {rest : JsonText Str Num .members} (h : Rest members i rest) :
    ∃ i, Rest members i .noMembers := by
  induction rest using JsonText.members_induct generalizing i with
  | noMembers => exact ⟨i, h⟩
  | member key value rest ih => exact ih h.skip

theorem not_peeksAgree (h : Documented core (JsonText.object members).tokens At behind) :
    ¬PeeksAgree core members At behind := by
  intro hpeeks
  obtain ⟨i, hrest⟩ := exists_rest_end (@Rest.start _ _ members)
  obtain ⟨hi, hdrop⟩ := hrest.drop_eq
  obtain ⟨j, rfl⟩ := Nat.exists_eq_add_of_le' hi
  have hat := h.at_behind j (Nat.lt_of_succ_lt (lt_of_getElem? (drop_split hdrop).1))
  have hpeek := hpeeks _ _ _ hrest hat
  rw [(iterStep_end h hat hdrop).2.2.2] at hpeek
  cases hpeek

/-- The position behind the opening brace is inside of the object. -/
theorem exists_inside (h : Documented core (JsonText.object members).tokens At behind) : ∃ p, Inside members At p :=
  ⟨behind 0, 1, h.at_behind 0 (Nat.succ_pos _), rfl⟩

/-- Where an iterator over a mapping starts. -/
theorem stepsAgree_iff (h : Documented core (JsonText.object members).tokens At behind) {allowed : StepKind → Prop}
    {P : Prop} (hgive : ∀ p, At p 1 → (StepsGive core allowed p (members.pairs behind 1) ↔ P)) :
    StepsAgree core members At behind allowed ↔ P := by
  have hinit : ∀ jmParser, Inside members At jmParser →
      jmapiterInit core jmParser = some (core.rewind jmParser).2 ∧ At (core.rewind jmParser).2 1 := by
    intro jmParser hinside
    obtain ⟨hobject, hat⟩ := rewind_inside h hinside
    exact ⟨if_pos hobject, hat⟩
  constructor
  · intro hall
    obtain ⟨jmParser, hinside⟩ := exists_inside h
    obtain ⟨p, hp, hsteps⟩ := hall jmParser hinside
    obtain ⟨hpos, hat⟩ := hinit jmParser hinside
    rw [hpos, Option.some.injEq] at hp
    exact (hgive p (hp ▸ hat)).mp hsteps
  · intro hP jmParser hinside
    obtain ⟨hpos, hat⟩ := hinit jmParser hinside
    exact ⟨_, hpos, (hgive _ hat).mpr hP⟩

end Runs

/-! ### What agrees -/

section Agreement

variable {core : TokenCore Pos Str Num} {At : Pos → ℕ → Prop} {behind : ℕ → Pos} {start : Pos}
  {members : JsonText Str Num .members}

/-- The constructor refuses every object, `nextkey`, `nextvalue` and `peek` never come to an end without an error, and
the others go wrong exactly behind a value in brackets that is not the last one. -/
theorem lazyAgrees_never (h : Documented core (JsonText.object members).tokens At behind) (hstart : At start 0) :
    ¬LazyAgrees core members At behind start ∧ jmapInit core start = none ∧
      ¬StepsAgree core members At behind (· = .key) ∧ ¬StepsAgree core members At behind (· = .value) ∧
      ¬PeeksAgree core members At behind ∧
      (StepsAgree core members At behind (· = .pair) ↔ members.NestedLast) ∧
      (ForeachAgrees core members At behind ↔ members.NestedLast) ∧
      SizeAgrees core members At ∧ BoolAgrees core members At := by
  have hdrop : (JsonText.object members).tokens.drop 1 = members.tokens ++ [.mark .endObject] := rfl
  have hrefused : jmapInit core start = none := by
    unfold jmapInit
    rw [h.yield start 0 (.mark .object) hstart rfl]
    exact if_neg Tok.noConfusion
  refine ⟨fun hagrees => ?_, hrefused, fun hkeys => ?_, fun hvalues => ?_, not_peeksAgree h, ?_,
    foreach_agrees_iff h (exists_inside h), size_agrees h, bool_agrees h⟩
  · obtain ⟨p, hp, -⟩ := hagrees.constructed
    rw [hrefused] at hp
    cases hp
  · exact (stepsAgree_iff h fun p hp => iff_false_intro (stepsGive_key h hp hdrop)).mp hkeys
  · exact (stepsAgree_iff h fun p hp => iff_false_intro (stepsGive_value h hp hdrop)).mp hvalues
  · exact stepsAgree_iff h fun p hp => stepsGive_pair h hp hdrop

/-- The text `{"a": 1}`, with numbers for strings. -/
def oneMember : JsonText ℕ ℕ .members := .member 97 (.number 1) .noMembers

theorem lazyAgrees_never_oneMember :
    ¬LazyAgrees (tokenListCore (JsonText.object oneMember).tokens) oneMember (fun p i => p = i) (fun i => i + 1) 0 :=
  (lazyAgrees_never (tokenListCore_documented _) rfl).1

end Agreement

/-- The text `{"a": 1}` is refused, and of its keys the iterator gives one and then an error. -/
theorem lazyAgrees_fails : jmapInit (tokenListCore (JsonText.object oneMember).tokens) 0 = none ∧
    iterSteps (tokenListCore (JsonText.object oneMember).tokens) 1 [.key, .key] = [.key 97, .errorSyntax] ∧
    ¬LazyAgrees (tokenListCore (JsonText.object oneMember).tokens) oneMember (fun p i => p = i) (fun i => i + 1) 0 := by
  have hrefused : jmapInit (tokenListCore (JsonText.object oneMember).tokens) 0 = none := rfl
  refine ⟨hrefused, rfl, fun hagrees => ?_⟩
  obtain ⟨p, hp, -⟩ := hagrees.constructed
  rw [hrefused] at hp
  cases hp

end Deemon.Json
