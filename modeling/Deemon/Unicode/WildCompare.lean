import Deemon.Lib.TokenSearch
import Deemon.Unicode.FoldReader

/-!
# Wildcards

`LOCAL_wildcompare` and `LOCAL_wildcasecompare` search for a pattern with stars and question marks. Both read a question
mark behind stars in a way of their own (`wildTokens`, `caseTokens`), and look for the end of the text only where the
character behind the stars has not been found.
-/

namespace Deemon.Unicode

open Deemon.Run Deemon.TokenSearch

/-! ### The code -/

/-- `Dee_CompareNe`. -/
def compareNe (lhs rhs : ℕ) : Ordering := if lhs < rhs then .lt else .gt

/-- The loop of `LOCAL_wildcompare` at the end of the text: only stars may be left. -/
def wildEnd : List ℕ → Ordering
  | [] => .eq
  | c :: pattern => if c ≠ 0x2a then .lt else wildEnd pattern

/-- The loop of `LOCAL_wildcompare` that skips stars. -/
def skipStars (pattern : List ℕ) : List ℕ := pattern.dropWhile (· = 0x2a)

/-- The loop of `LOCAL_wildcompare` that looks for the character behind stars; `compare` is the call of itself. -/
def wildScan (compare : List ℕ → List ℕ → Option Ordering) (cardPost : ℕ) (string pattern : List ℕ) : Option Ordering :=
  loop (fun string =>
    match string with
    -- `*string++` behind the text
    | [] => none
    | ch :: string =>
      if ch = cardPost then do
        if (← compare string pattern) = .eq then some (.done .eq) else some (.next string)
      else if string = [] then some (.done .lt)
      else some (.next string)) (string.length + 1) string

/-- A round of `LOCAL_wildcompare`: what is left of the text and of the pattern. A pattern behind its end is empty. -/
def wildRound (compare : List ℕ → List ℕ → Option Ordering) :
    List ℕ × List ℕ → Option (Step (List ℕ × List ℕ) Ordering)
  | ([], pattern) => some (.done (wildEnd pattern))
  | (_ :: _, []) => some (.done .gt)
  | (ch :: string, p :: pattern) =>
    if p = 0x2a then
      match skipStars pattern with
      | [] => some (.done .eq)
      | cardPost :: pattern =>
        if cardPost = 0x3f then some (.next (string, pattern.tail))
        else do some (.done (← wildScan compare cardPost (ch :: string) pattern))
    else if p = ch ∨ p = 0x3f then some (.next (string, pattern))
    else some (.done (compareNe ch p))

/-- `LOCAL_wildcompare` with a bound for the depth of its calls. -/
def wildcompareTo : ℕ → List ℕ → List ℕ → Option Ordering
  | 0, _, _ => none
  | depth + 1, string, pattern => loop (wildRound (wildcompareTo depth)) (pattern.length + 1) (string, pattern)

/-- `LOCAL_wildcompare`. Every call of itself has less of the pattern left. -/
def wildcompare (string pattern : List ℕ) : Option Ordering := wildcompareTo (pattern.length + 1) string pattern

/-- The loop of `LOCAL_wildcasecompare` at the end of the text. -/
def wildcaseEnd (F : Folding) (fuel : ℕ) (pattern : FoldReader) : Option Ordering :=
  loop (fun pattern =>
    if pattern.empty then some (.done .eq)
    else do
      let (ch, pattern) ← pattern.getc F
      if ch ≠ 0x2a then some (.done .lt) else some (.next pattern)) fuel pattern

/-- The loop of `LOCAL_wildcasecompare` that skips stars: the character behind them, if there is one. -/
def skipCaseStars (F : Folding) (fuel : ℕ) (pattern : FoldReader) : Option (Option (ℕ × FoldReader)) :=
  loop (fun pattern =>
    if pattern.empty then some (.done none)
    else do
      let (ch, pattern) ← pattern.getc F
      if ch = 0x2a then some (.next pattern) else some (.done (some (ch, pattern)))) fuel pattern

/-- The loop of `LOCAL_wildcasecompare` that looks for the character behind stars. -/
def wildcaseScan (F : Folding) (fuel : ℕ) (compare : FoldReader → FoldReader → Option Ordering) (patternCh : ℕ)
    (string pattern : FoldReader) : Option Ordering :=
  loop (fun string => do
    let (ch, string) ← string.getc F
    if ch = patternCh then do
      if (← compare string pattern) = .eq then some (.done .eq) else some (.next string)
    else if string.empty then some (.done .lt)
    else some (.next string)) fuel string

/-- A round of `LOCAL_wildcasecompare`. -/
def wildcaseRound (F : Folding) (fuel : ℕ) (compare : FoldReader → FoldReader → Option Ordering) :
    FoldReader × FoldReader → Option (Step (FoldReader × FoldReader) Ordering)
  | (string, pattern) =>
    if string.empty then do some (.done (← wildcaseEnd F fuel pattern))
    else if pattern.empty then some (.done .gt)
    else do
      let (patternCh, pattern) ← pattern.getc F
      if patternCh = 0x2a then do
        match ← skipCaseStars F fuel pattern with
        | none => some (.done .eq)
        | some (patternCh, pattern) =>
          -- nothing of the text is read
          if patternCh = 0x3f then some (.next (string, pattern))
          else do some (.done (← wildcaseScan F fuel compare patternCh string pattern))
      else do
        let (ch, string) ← string.getc F
        if patternCh = ch ∨ patternCh = 0x3f then some (.next (string, pattern))
        else some (.done (compareNe ch patternCh))

/-- `LOCAL_wildcasecompare` with a bound for the depth of its calls and the rounds of its loops. -/
def wildcasecompareTo (F : Folding) (fuel : ℕ) : ℕ → FoldReader → FoldReader → Option Ordering
  | 0, _, _ => none
  | depth + 1, string, pattern => loop (wildcaseRound F fuel (wildcasecompareTo F fuel depth)) fuel (string, pattern)

/-- `LOCAL_wildcasecompare`. A character gives up to three folded ones. -/
def wildcasecompare (F : Folding) (string pattern : List ℕ) : Option Ordering :=
  wildcasecompareTo F (3 * (string.length + pattern.length) + 1) (3 * pattern.length + 1) (.init string) (.init pattern)

/-! ### The patterns as the code reads them -/

/-- The texts of a pattern of stars, question marks and other characters. -/
def Matches : List ℕ → List ℕ → Prop
  | [], text => text = []
  | c :: pattern, text =>
    if c = 0x2a then ∃ u v, text = u ++ v ∧ Matches pattern v
    else if c = 0x3f then ∃ x v, text = x :: v ∧ Matches pattern v
    else ∃ v, text = c :: v ∧ Matches pattern v

/-- The pattern as `LOCAL_wildcompare` reads it, behind stars or not: a question mark behind stars stands for one character,
and the character behind it is skipped. -/
def wildTokens : List ℕ → Bool → List Token
  | [], stars => if stars then [.rest] else []
  | c :: pattern, stars =>
    if c = 0x2a then wildTokens pattern true
    else if c = 0x3f then
      if stars then
        match pattern with
        | [] => [.any]
        | _ :: pattern => .any :: wildTokens pattern false
      else .any :: wildTokens pattern false
    else (if stars then .upTo c else .char c) :: wildTokens pattern false

/-- The pattern as `LOCAL_wildcasecompare` reads it: stars with a question mark behind them stand for nothing, but not at the
end of the text. -/
def caseTokens : List ℕ → Bool → List Token
  | [], stars => if stars then [.rest] else []
  | c :: pattern, stars =>
    if c = 0x2a then caseTokens pattern true
    else if c = 0x3f then (if stars then .more else .any) :: caseTokens pattern false
    else (if stars then .upTo c else .char c) :: caseTokens pattern false

theorem wildTokens_cons (c : ℕ) (pattern : List ℕ) (stars : Bool) : wildTokens (c :: pattern) stars =
    if c = 0x2a then wildTokens pattern true
    else if c = 0x3f then .any :: wildTokens (if stars then pattern.tail else pattern) false
    else (if stars then .upTo c else .char c) :: wildTokens pattern false := by
  rw [wildTokens.eq_def]
  dsimp only
  split_ifs
  · rfl
  · cases pattern <;> rfl
  · rfl
  · rfl
  · rfl

/-- What is left to read behind stars. -/
theorem wildTokens_stars (pattern : List ℕ) : wildTokens pattern true =
    match skipStars pattern with
    | [] => [.rest]
    | c :: pattern => if c = 0x3f then .any :: wildTokens pattern.tail false else .upTo c :: wildTokens pattern false := by
  induction pattern with
  | nil => rfl
  | cons c pattern ih =>
    by_cases hc : c = 0x2a
    · rw [wildTokens_cons, if_pos hc, ih, skipStars, skipStars, List.dropWhile_cons_of_pos (by simpa using hc)]
    · rw [wildTokens_cons, if_neg hc, skipStars, List.dropWhile_cons_of_neg (by simpa using hc)]
      dsimp only
      by_cases hmark : c = 0x3f
      · rw [if_pos hmark, if_pos hmark, if_pos rfl]
      · rw [if_neg hmark, if_neg hmark, if_pos rfl]

theorem caseTokens_stars (pattern : List ℕ) : caseTokens pattern true =
    match skipStars pattern with
    | [] => [.rest]
    | c :: pattern => (if c = 0x3f then .more else .upTo c) :: caseTokens pattern false := by
  induction pattern with
  | nil => rfl
  | cons c pattern ih =>
    by_cases hc : c = 0x2a
    · rw [caseTokens, if_pos hc, ih, skipStars, skipStars, List.dropWhile_cons_of_pos (by simpa using hc)]
    · rw [caseTokens, if_neg hc, skipStars, List.dropWhile_cons_of_neg (by simpa using hc)]
      dsimp only
      by_cases hmark : c = 0x3f
      · rw [if_pos hmark, if_pos hmark, if_pos rfl]
      · rw [if_neg hmark, if_neg hmark, if_pos rfl]

/-! ### Both functions search -/

section Search

variable {compare : List ℕ → List ℕ → Option Ordering} {q : List Token} {string pattern : List ℕ} {ch p fuel depth : ℕ}

/-- Whether a comparison says that its arguments are equal. -/
def equal (r : Option Ordering) : Option Bool := r.map (· == .eq)

theorem compareNe_ne_eq (lhs rhs : ℕ) : (compareNe lhs rhs == .eq) = false := by
  unfold compareNe
  split <;> rfl

theorem search_wildTokens_nil (stars : Bool) (pattern : List ℕ) :
    search (wildTokens pattern stars) [] = some (wildEnd pattern == .eq) := by
  induction pattern generalizing stars with
  | nil => cases stars <;> rfl
  | cons c pattern ih =>
    rw [wildTokens_cons, wildEnd]
    by_cases hc : c = 0x2a
    · rw [if_pos hc, if_neg (not_not.mpr hc), ih]
    · rw [if_neg hc, if_pos hc]
      by_cases hmark : c = 0x3f
      · rw [if_pos hmark]
        rfl
      · rw [if_neg hmark]
        cases stars <;> rfl

theorem search_caseTokens_nil (stars : Bool) (pattern : List ℕ) :
    search (caseTokens pattern stars) [] = some (wildEnd pattern == .eq) := by
  induction pattern generalizing stars with
  | nil => cases stars <;> rfl
  | cons c pattern ih =>
    rw [caseTokens, wildEnd]
    by_cases hc : c = 0x2a
    · rw [if_pos hc, if_neg (not_not.mpr hc), ih]
    · rw [if_neg hc, if_pos hc]
      by_cases hmark : c = 0x3f
      · rw [if_pos hmark]
        cases stars <;> rfl
      · rw [if_neg hmark]
        cases stars <;> rfl

/-- The scan is that of the search. -/
theorem equal_wildScan (cardPost : ℕ) (hcompare : ∀ s, equal (compare s pattern) = search q s) :
    equal (wildScan compare cardPost string pattern) = scan cardPost (search q) string := by
  unfold wildScan
  generalize hfuel : string.length + 1 = fuel
  induction fuel generalizing string with
  | zero => omega
  | succ fuel ih =>
    cases string with
    | nil => rfl
    | cons ch string =>
      have hrest := @ih string (by rw [List.length_cons] at hfuel; omega)
      rw [loop, scan]
      dsimp only
      by_cases hch : ch = cardPost
      · rw [if_pos hch, if_pos hch, ← hcompare string]
        cases hrun : compare string pattern with
        | none => rfl
        | some o =>
          cases o with
          | eq => rfl
          | lt => exact hrest
          | gt => exact hrest
      · rw [if_neg hch, if_neg hch]
        by_cases hend : string = []
        · rw [if_pos hend, if_pos hend]
          rfl
        · rw [if_neg hend, if_neg hend]
          exact hrest

/-- The rounds search for what is left of the pattern, where the calls for less of it do. -/
theorem equal_wildRounds (hcompare : ∀ s p, p.length < depth → equal (compare s p) = search (wildTokens p false) s)
    (hdepth : pattern.length ≤ depth) (hfuel : pattern.length < fuel) :
    equal (loop (wildRound compare) fuel (string, pattern)) = search (wildTokens pattern false) string := by
  induction fuel generalizing string pattern with
  | zero => omega
  | succ fuel ih =>
    rw [loop]
    cases string with
    | nil => exact (search_wildTokens_nil false pattern).symm
    | cons ch string =>
      cases pattern with
      | nil => rfl
      | cons p pattern =>
        rw [List.length_cons] at hdepth hfuel
        rw [wildTokens_cons, wildRound]
        by_cases hstar : p = 0x2a
        · rw [if_pos hstar, if_pos hstar, wildTokens_stars]
          have hlen := (List.dropWhile_suffix (l := pattern) (· = 0x2a)).length_le
          cases hskip : skipStars pattern with
          | nil => rfl
          | cons cardPost rest =>
            rw [skipStars] at hskip
            rw [hskip, List.length_cons] at hlen
            dsimp only
            by_cases hmark : cardPost = 0x3f
            · rw [if_pos hmark, if_pos hmark, some_bind, search]
              exact ih (by rw [List.length_tail]; omega) (by rw [List.length_tail]; omega)
            · rw [if_neg hmark, if_neg hmark, search, ← equal_wildScan cardPost fun s => hcompare s rest (by omega)]
              cases wildScan compare cardPost (ch :: string) rest <;> rfl
        · rw [if_neg hstar, if_neg hstar]
          by_cases hmark : p = 0x3f
          · rw [if_pos (.inr hmark), if_pos hmark, some_bind, search]
            exact ih (by omega) (by omega)
          · rw [if_neg hmark]
            by_cases hch : p = ch
            · subst hch
              rw [if_pos (.inl rfl), some_bind]
              dsimp only [if_neg]
              rw [if_neg Bool.false_ne_true, search, if_pos rfl]
              exact ih (by omega) (by omega)
            · rw [if_neg (by tauto), some_bind, if_neg Bool.false_ne_true, search, if_neg (Ne.symm hch)]
              exact congrArg some (compareNe_ne_eq ch p)

/-- `LOCAL_wildcompare` searches for the pattern as it reads it. -/
theorem equal_wildcompareTo (hdepth : pattern.length < depth) :
    equal (wildcompareTo depth string pattern) = search (wildTokens pattern false) string := by
  induction depth generalizing string pattern with
  | zero => omega
  | succ depth ih => exact equal_wildRounds (fun s p hp => ih hp) (by omega) (Nat.lt_succ_self _)

end Search

section CaseSearch

variable {F : Folding} {compare : FoldReader → FoldReader → Option Ordering} {q : List Token} {string pattern : FoldReader}
  {fuel rounds depth : ℕ}

theorem wildcaseEnd_eq (hfuel : (pattern.unread F).length < fuel) :
    wildcaseEnd F fuel pattern = some (wildEnd (pattern.unread F)) := by
  induction fuel generalizing pattern with
  | zero => omega
  | succ fuel ih =>
    cases hpattern : pattern.unread F with
    | nil =>
      refine loop_done ?_
      rw [if_pos (FoldReader.empty_eq_true hpattern), wildEnd]
    | cons c rest =>
      obtain ⟨⟨c, pattern'⟩, hread, hc, hrest⟩ := FoldReader.getc_cons hpattern
      dsimp only at hc hrest
      subst hc hrest
      rw [hpattern, List.length_cons] at hfuel
      rw [wildEnd]
      by_cases hstar : c ≠ 0x2a
      · refine loop_done ?_
        rw [FoldReader.empty_eq_false hpattern, if_neg Bool.false_ne_true, hread, some_bind]
        dsimp only
        rw [if_pos hstar, if_pos hstar]
      · rw [if_neg hstar, ← ih (by omega)]
        refine loop_next ?_
        rw [FoldReader.empty_eq_false hpattern, if_neg Bool.false_ne_true, hread, some_bind]
        dsimp only
        rw [if_neg hstar]

/-- What is behind the stars of a reader. -/
def Behind (F : Folding) (r : Option (ℕ × FoldReader)) (text : List ℕ) : Prop :=
  match text with
  | [] => r = none
  | c :: rest => ∃ reader, r = some (c, reader) ∧ reader.unread F = rest

theorem skipCaseStars_ends (pattern : FoldReader) (hfuel : (pattern.unread F).length < fuel) :
    Ends (skipCaseStars F fuel pattern) fun r => Behind F r (skipStars (pattern.unread F)) := by
  refine loop_ends (fun p => skipStars (p.unread F) = skipStars (pattern.unread F)) (fun p => (p.unread F).length) rfl hfuel ?_
  intro p hsame
  rw [← hsame]
  cases hp : p.unread F with
  | nil =>
    rw [if_pos (FoldReader.empty_eq_true hp)]
    exact Ends.pure rfl
  | cons c rest =>
    obtain ⟨⟨c, p'⟩, hread, hc, hrest⟩ := FoldReader.getc_cons hp
    dsimp only at hc hrest
    subst hc hrest
    rw [FoldReader.empty_eq_false hp, if_neg Bool.false_ne_true, hread, some_bind]
    dsimp only
    by_cases hstar : c = 0x2a
    · rw [if_pos hstar]
      have hbehind : skipStars (c :: p'.unread F) = skipStars (p'.unread F) :=
        List.dropWhile_cons_of_pos (by simpa using hstar)
      exact Ends.pure ⟨hbehind.symm, Nat.lt_succ_self _⟩
    · have hbehind : skipStars (c :: p'.unread F) = c :: p'.unread F := List.dropWhile_cons_of_neg (by simpa using hstar)
      rw [if_neg hstar, hbehind]
      exact Ends.pure ⟨p', rfl, rfl⟩

theorem equal_wildcaseScan (patternCh : ℕ) (string : FoldReader) {bound : ℕ}
    (hcompare : ∀ s : FoldReader, (s.unread F).length < bound → equal (compare s pattern) = search q (s.unread F))
    (hbound : (string.unread F).length < bound) (hfuel : (string.unread F).length < fuel) :
    equal (wildcaseScan F fuel compare patternCh string pattern) = scan patternCh (search q) (string.unread F) := by
  unfold wildcaseScan
  induction fuel generalizing string with
  | zero => omega
  | succ fuel ih =>
    rw [loop]
    cases hstring : string.unread F with
    | nil =>
      rw [FoldReader.getc_nil hstring]
      rfl
    | cons ch rest =>
      obtain ⟨⟨ch, string'⟩, hread, hch, hrest⟩ := FoldReader.getc_cons hstring
      dsimp only at hch hrest
      subst hch hrest
      rw [hstring, List.length_cons] at hfuel hbound
      have hgo := ih string' (by omega) (by omega)
      rw [hread, some_bind, scan]
      dsimp only
      by_cases hsame : ch = patternCh
      · rw [if_pos hsame, if_pos hsame, ← hcompare string' (by omega)]
        cases compare string' pattern with
        | none => rfl
        | some o =>
          cases o with
          | eq => rfl
          | lt => exact hgo
          | gt => exact hgo
      · rw [if_neg hsame, if_neg hsame]
        by_cases hend : string'.unread F = []
        · rw [if_pos (FoldReader.empty_eq_true hend), if_pos hend]
          rfl
        · have hmore : string'.empty ≠ true := fun h => hend (FoldReader.empty_iff.mp h)
          rw [if_neg hmore, if_neg hend]
          exact hgo

theorem equal_wildcaseRounds
    (hcompare : ∀ s p : FoldReader, (p.unread F).length < depth → (s.unread F).length < fuel → (p.unread F).length < fuel →
      equal (compare s p) = search (caseTokens (p.unread F) false) (s.unread F))
    (hdepth : (pattern.unread F).length ≤ depth) (hrounds : (pattern.unread F).length < rounds)
    (hstring : (string.unread F).length < fuel) (hpattern : (pattern.unread F).length < fuel) :
    equal (loop (wildcaseRound F fuel compare) rounds (string, pattern)) =
      search (caseTokens (pattern.unread F) false) (string.unread F) := by
  induction rounds generalizing string pattern with
  | zero => omega
  | succ rounds ih =>
    rw [loop, wildcaseRound]
    cases hs : string.unread F with
    | nil =>
      rw [if_pos (FoldReader.empty_eq_true hs), wildcaseEnd_eq hpattern, search_caseTokens_nil]
      rfl
    | cons ch rest =>
      rw [FoldReader.empty_eq_false hs, if_neg Bool.false_ne_true]
      cases hp : pattern.unread F with
      | nil =>
        rw [if_pos (FoldReader.empty_eq_true hp)]
        rfl
      | cons p restp =>
        obtain ⟨⟨p, pattern'⟩, hread, hc, hrest⟩ := FoldReader.getc_cons hp
        dsimp only at hc hrest
        subst hc hrest
        rw [hp, List.length_cons] at hdepth hrounds hpattern
        rw [FoldReader.empty_eq_false hp, if_neg Bool.false_ne_true, hread, some_bind, caseTokens]
        dsimp only
        by_cases hstar : p = 0x2a
        · rw [if_pos hstar, if_pos hstar, caseTokens_stars]
          obtain ⟨r, hskip, hbehind⟩ := skipCaseStars_ends (F := F) pattern' (show _ < fuel by omega)
          have hlen := (List.dropWhile_suffix (l := pattern'.unread F) (· = 0x2a)).length_le
          rw [hskip, some_bind]
          rw [← skipStars] at hlen
          cases htext : skipStars (pattern'.unread F) with
          | nil =>
            rw [htext] at hbehind
            rw [show r = none from hbehind]
            rfl
          | cons c restc =>
            rw [htext] at hbehind
            obtain ⟨reader, rfl, rfl⟩ := hbehind
            rw [htext, List.length_cons] at hlen
            dsimp only
            by_cases hmark : c = 0x3f
            · rw [if_pos hmark, if_pos hmark, some_bind, search, ← hs]
              exact ih (by omega) (by omega) hstring (by omega)
            · have hscan := equal_wildcaseScan (F := F) c string
                (fun s hs => hcompare s reader (by omega) hs (by omega)) hstring hstring
              rw [hs] at hscan
              rw [if_neg hmark, if_neg hmark, search, ← hscan]
              cases wildcaseScan F fuel compare c string reader <;> rfl
        · obtain ⟨⟨ch, string'⟩, hreads, hch, hrests⟩ := FoldReader.getc_cons hs
          dsimp only at hch hrests
          subst hch hrests
          rw [hs, List.length_cons] at hstring
          rw [if_neg hstar, if_neg hstar, hreads, some_bind]
          dsimp only
          by_cases hmark : p = 0x3f
          · rw [if_pos (.inr hmark), if_pos hmark, some_bind, if_neg Bool.false_ne_true, search]
            exact ih (by omega) (by omega) (by omega) (by omega)
          · rw [if_neg hmark, if_neg Bool.false_ne_true]
            by_cases hsame : p = ch
            · subst hsame
              rw [if_pos (.inl rfl), some_bind, search, if_pos rfl]
              exact ih (by omega) (by omega) (by omega) (by omega)
            · rw [if_neg (by tauto), some_bind, search, if_neg (Ne.symm hsame)]
              exact congrArg some (compareNe_ne_eq ch p)

/-- `LOCAL_wildcasecompare` searches for the pattern as it reads it. -/
theorem equal_wildcasecompareTo (string pattern : FoldReader) (hdepth : (pattern.unread F).length < depth) (hstring : (string.unread F).length < fuel)
    (hpattern : (pattern.unread F).length < fuel) :
    equal (wildcasecompareTo F fuel depth string pattern) =
      search (caseTokens (pattern.unread F) false) (string.unread F) := by
  induction depth generalizing string pattern with
  | zero => omega
  | succ depth ih =>
    exact equal_wildcaseRounds (fun s p hp hs hp' => ih s p hp hs hp') (by omega) hpattern hstring hpattern

end CaseSearch

/-! ### Patterns without question marks behind stars -/

section Plain

variable {pattern t : List ℕ}

/-- No question mark stands behind a star. -/
def NoMark : List ℕ → Prop
  | [] => True
  | c :: pattern => (c = 0x2a → pattern.head? ≠ some 0x3f) ∧ NoMark pattern

/-- Such a pattern is read as it is meant. -/
theorem lang_wildTokens_iff (h : NoMark pattern) : (Lang (wildTokens pattern false) t ↔ Matches pattern t) ∧
    (pattern.head? ≠ some 0x3f →
      (Lang (wildTokens pattern true) t ↔ ∃ u v, t = u ++ v ∧ Matches pattern v)) := by
  induction pattern generalizing t with
  | nil => exact ⟨Iff.rfl, fun _ => iff_of_true trivial ⟨t, [], (List.append_nil _).symm, rfl⟩⟩
  | cons c pattern ih =>
    obtain ⟨hmark, hrest⟩ := h
    have ihplain := fun t => (ih (t := t) hrest).1
    rw [wildTokens_cons, wildTokens_cons]
    by_cases hstar : c = 0x2a
    · have ihstars := fun t => (ih (t := t) hrest).2 (hmark hstar)
      simp only [Matches, hstar, if_true]
      refine ⟨ihstars t, fun _ => (ihstars t).trans ⟨?_, ?_⟩⟩
      · rintro ⟨u, v, rfl, hv⟩
        exact ⟨u, v, rfl, [], v, rfl, hv⟩
      · rintro ⟨u, _, rfl, u', v, rfl, hv⟩
        exact ⟨u ++ u', v, (List.append_assoc _ _ _).symm, hv⟩
    · simp only [Matches, if_neg hstar]
      by_cases hc : c = 0x3f
      · rw [if_pos hc, if_pos hc, if_pos hc]
        refine ⟨?_, fun hne => absurd (congrArg some hc) hne⟩
        simp only [Lang, Bool.false_eq_true, if_false, ihplain]
      · simp only [if_neg hc, Bool.false_eq_true, if_false, if_true, Lang, ihplain]
        refine ⟨trivial, fun _ => ⟨?_, ?_⟩⟩
        · rintro ⟨u, v, rfl, hv⟩
          exact ⟨u, c :: v, rfl, v, rfl, hv⟩
        · rintro ⟨u, _, rfl, v, rfl, hv⟩
          exact ⟨u, v, rfl, hv⟩

theorem caseTokens_eq_wildTokens (h : NoMark pattern) : caseTokens pattern false = wildTokens pattern false ∧
    (pattern.head? ≠ some 0x3f → caseTokens pattern true = wildTokens pattern true) := by
  induction pattern with
  | nil => exact ⟨rfl, fun _ => rfl⟩
  | cons c pattern ih =>
    obtain ⟨hmark, hrest⟩ := h
    obtain ⟨hplain, hstars⟩ := ih hrest
    rw [wildTokens_cons, wildTokens_cons, caseTokens, caseTokens, hplain]
    by_cases hstar : c = 0x2a
    · rw [if_pos hstar, if_pos hstar, if_pos hstar, if_pos hstar]
      exact ⟨hstars (hmark hstar), fun _ => hstars (hmark hstar)⟩
    · rw [if_neg hstar, if_neg hstar, if_neg hstar, if_neg hstar]
      by_cases hc : c = 0x3f
      · rw [if_pos hc, if_pos hc]
        exact ⟨rfl, fun hne => absurd (congrArg some hc) hne⟩
      · rw [if_neg hc, if_neg hc, if_neg hc, if_neg hc]
        exact ⟨rfl, fun _ => rfl⟩

end Plain

/-! ### When they decide -/

/-- A comparison ends, reads nothing else, and says that text and pattern are equal just when the text is one of the pattern. -/
def Decides (r : Option Ordering) (text pattern : List ℕ) : Prop :=
  ∃ o, r = some o ∧ (o = .eq ↔ Matches pattern text)

theorem decides_iff {r : Option Ordering} {q : List Token} {text pattern : List ℕ} (h : equal r = search q text) :
    Decides r text pattern ↔ (Lang q text ↔ Matches pattern text) ∧ (Lang q text ∨ ¬ Stuck q text) := by
  have hright := search_right q text
  rw [← h] at hright
  have hnone : equal r = none ↔ r = none := Option.map_eq_none_iff
  have hfound : equal r = some true ↔ r = some .eq := by
    rw [equal, Option.map_eq_some_iff]
    constructor
    · rintro ⟨o, rfl, ho⟩
      rw [eq_of_beq ho]
    · rintro rfl
      exact ⟨.eq, rfl, rfl⟩
  have hlang := hfound.symm.trans hright.found
  have hfault := hnone.symm.trans hright.fault
  constructor
  · rintro ⟨o, rfl, ho⟩
    refine ⟨?_, ?_⟩
    · rw [← hlang, Option.some.injEq, ho]
    · by_contra hnot
      rw [not_or, not_not] at hnot
      cases hfault.mpr hnot
  · rintro ⟨hsame, hsafe⟩
    cases r with
    | none => exact absurd (hfault.mp rfl) (by tauto)
    | some o => exact ⟨o, rfl, by rw [← hsame, ← hlang, Option.some.injEq]⟩

theorem equal_wildcompare (text pattern : List ℕ) :
    equal (wildcompare text pattern) = search (wildTokens pattern false) text :=
  equal_wildcompareTo (Nat.lt_succ_self _)

theorem equal_wildcasecompare (F : Folding) (text pattern : List ℕ) : equal (wildcasecompare F text pattern) =
    search (caseTokens (F.foldText pattern) false) (F.foldText text) := by
  have htext := Folding.length_foldText_le (F := F) text
  have hpattern := Folding.length_foldText_le (F := F) pattern
  rw [← FoldReader.unread_init] at htext hpattern
  exact equal_wildcasecompareTo (.init text) (.init pattern) (by omega) (by omega) (by omega)

/-- Without question marks behind stars both comparisons go wrong by reading behind the text only. -/
theorem decides_of_noMark (F : Folding) {text pattern : List ℕ} (h : NoMark pattern) (hfold : NoMark (F.foldText pattern)) :
    (Decides (wildcompare text pattern) text pattern ↔ Matches pattern text ∨ ¬ Stuck (wildTokens pattern false) text) ∧
    (Decides (wildcasecompare F text pattern) (F.foldText text) (F.foldText pattern) ↔
      Matches (F.foldText pattern) (F.foldText text) ∨ ¬ Stuck (wildTokens (F.foldText pattern) false) (F.foldText text)) := by
  have hcase := equal_wildcasecompare F text pattern
  rw [(caseTokens_eq_wildTokens hfold).1] at hcase
  refine ⟨(decides_iff (equal_wildcompare text pattern)).trans ?_, (decides_iff hcase).trans ?_⟩
  · rw [(lang_wildTokens_iff h).1]
    exact and_iff_right Iff.rfl
  · rw [(lang_wildTokens_iff hfold).1]
    exact and_iff_right Iff.rfl

/-- The comparisons decide the language of a pattern just when the text is one of the pattern as it is read if and only if it
is one of the pattern, and no way to read the pattern comes to stars whose character is the last one of a text that is none. -/
theorem decides_wildcompare_iff (F : Folding) (text pattern : List ℕ) :
    (Decides (wildcompare text pattern) text pattern ↔
      (Lang (wildTokens pattern false) text ↔ Matches pattern text) ∧
        (Lang (wildTokens pattern false) text ∨ ¬ Stuck (wildTokens pattern false) text)) ∧
    (Decides (wildcasecompare F text pattern) (F.foldText text) (F.foldText pattern) ↔
      (Lang (caseTokens (F.foldText pattern) false) (F.foldText text) ↔ Matches (F.foldText pattern) (F.foldText text)) ∧
        (Lang (caseTokens (F.foldText pattern) false) (F.foldText text) ∨
          ¬ Stuck (caseTokens (F.foldText pattern) false) (F.foldText text))) :=
  ⟨decides_iff (equal_wildcompare text pattern), decides_iff (equal_wildcasecompare F text pattern)⟩

/-- Behind stars and a question mark a character of the pattern is skipped, and a failed attempt at the last character reads
behind the text. -/
theorem decides_wildcompare_fails : ¬ Decides (wildcompare [0x61, 0x62] [0x2a, 0x3f, 0x62]) [0x61, 0x62] [0x2a, 0x3f, 0x62] ∧
    wildcompare [0x61] [0x2a, 0x61, 0x63] = none := by
  refine ⟨?_, by decide⟩
  rintro ⟨o, ho, hmatch⟩
  have hrun : wildcompare [0x61, 0x62] [0x2a, 0x3f, 0x62] = some .gt := by decide
  rw [hrun] at ho
  cases ho
  have htext : Matches [0x2a, 0x3f, 0x62] [0x61, 0x62] :=
    ⟨[], [0x61, 0x62], rfl, 0x61, [0x62], rfl, [], rfl, rfl⟩
  cases hmatch.mpr htext

end Deemon.Unicode
