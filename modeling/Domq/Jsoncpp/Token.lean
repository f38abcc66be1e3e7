import Domq.Lib.Json

/-!
# The tokens of `Json::Reader`

`Reader::readToken` and the functions below it (`json_reader.cpp`).

* The state of the reader is what lies between `current_` and `end_`. The document is a
  `std::string`, so a NUL byte follows its end.
* `readToken` always returns true; `errors_`, the comments and the positions that the reader
  collects are left out, since no caller looks at them.
* The loops that read a token at a time have a bound, the length of what is left.

Results: `readToken_shorter`: a token takes at least one byte; `readToken_shape`: what a token
starts with decides what is left behind it.
-/

namespace Domq.Jsoncpp

open Domq.Lib

/-- `Reader::TokenType`. -/
inductive TokenType
  | endOfStream | objectBegin | objectEnd | arrayBegin | arrayEnd | string | number | true | false
  | null | arraySeparator | memberSeparator | comment | error
  deriving DecidableEq

/-- `Reader::Token`: its type, and the bytes from `start_` to `end_`. -/
structure Token where
  type : TokenType
  text : Bytes
  deriving DecidableEq

/-- `getNextChar`; at the end it is a NUL, and nothing is taken. -/
def getNextChar : Bytes → UInt8 × Bytes
  | [] => (0, [])
  | c :: s => (c, s)

/-- `skipSpaces`. -/
def skipSpaces (s : Bytes) : Bytes :=
  s.dropWhile fun c => c == 32 || c == 9 || c == 13 || c == 10

/-- `match`: whether the pattern comes next; it is taken if it does. -/
def matchPattern (pattern s : Bytes) : Bool × Bytes :=
  if pattern <+: s then (true, s.drop pattern.length) else (false, s)

/-- `readCStyleComment`, behind the `/*`. -/
def readCStyleComment : Bytes → Bool × Bytes
  | [] => (false, [])
  | c :: s => if c = 42 ∧ s.head? = some 47 then (true, s.tail) else readCStyleComment s

/-- `readCppStyleComment`, behind the `//`. -/
def readCppStyleComment : Bytes → Bytes
  | [] => []
  | c :: s => if c = 13 ∨ c = 10 then s else readCppStyleComment s

/-- `readComment`, behind the first `/`. -/
def readComment (s : Bytes) : Bool × Bytes :=
  let (c, s) := getNextChar s
  if c = 42 then readCStyleComment s
  else if c = 47 then (true, readCppStyleComment s)
  else (false, s)

/-- A character that `readNumber` goes on with. -/
def isNumberChar (c : UInt8) : Bool :=
  (48 ≤ c && c ≤ 57) || c == 46 || c == 101 || c == 69 || c == 43 || c == 45

/-- `readNumber`. -/
def readNumber (s : Bytes) : Bytes := s.dropWhile isNumberChar

/-- `readString`, behind the first quotation mark. -/
def readString : Bytes → Bool × Bytes
  | [] => (false, [])
  | [c] => (c = 34, [])
  | c :: c' :: s =>
    if c = 92 then readString s
    else if c = 34 then (true, c' :: s)
    else readString (c' :: s)

/-- The `switch` of `readToken`: the type of the token before `if ( !ok )`, `ok`, and what is left,
for the character `c` and what is left behind it. -/
def readTokenSwitch (c : UInt8) (s : Bytes) : TokenType × Bool × Bytes :=
  if c = 123 then (.objectBegin, true, s)
  else if c = 125 then (.objectEnd, true, s)
  else if c = 91 then (.arrayBegin, true, s)
  else if c = 93 then (.arrayEnd, true, s)
  else if c = 34 then (.string, readString s)
  else if c = 47 then (.comment, readComment s)
  else if 48 ≤ c ∧ c ≤ 57 ∨ c = 45 then (.number, true, readNumber s)
  else if c = 116 then (.true, matchPattern (ascii "rue") s)
  else if c = 102 then (.false, matchPattern (ascii "alse") s)
  else if c = 110 then (.null, matchPattern (ascii "ull") s)
  else if c = 44 then (.arraySeparator, true, s)
  else if c = 58 then (.memberSeparator, true, s)
  else if c = 0 then (.endOfStream, true, s)
  else (.error, false, s)

/-- `readToken`: the token, and what is left. -/
def readToken (s : Bytes) : Token × Bytes :=
  let start := skipSpaces s
  let (c, s) := getNextChar start
  let (type, ok, rest) := readTokenSwitch c s
  (⟨if ok then type else .error, start.take (start.length - rest.length)⟩, rest)

/-- `skipCommentTokens`, with a bound on the comments; `readObject` and `readArray` have the same
loop of their own. -/
def skipCommentTokens : Nat → Bytes → Token × Bytes
  | 0, s => readToken s
  | n + 1, s =>
    let (token, rest) := readToken s
    if token.type = .comment then skipCommentTokens n rest else (token, rest)

/-- The next token that is no comment. -/
def nextToken (s : Bytes) : Token × Bytes := skipCommentTokens s.length s

/-! ## What is left -/

theorem getNextChar_suffix (s : Bytes) : (getNextChar s).2 <:+ s := by
  cases s with
  | nil => exact List.suffix_rfl
  | cons c s => exact List.suffix_cons c s

theorem skipSpaces_suffix (s : Bytes) : skipSpaces s <:+ s := List.dropWhile_suffix _

theorem matchPattern_suffix (pattern s : Bytes) : (matchPattern pattern s).2 <:+ s := by
  unfold matchPattern
  split
  · exact List.drop_suffix _ s
  · exact List.suffix_rfl

theorem readCStyleComment_suffix (s : Bytes) : (readCStyleComment s).2 <:+ s := by
  induction s with
  | nil => exact List.suffix_rfl
  | cons c s ih =>
    unfold readCStyleComment
    split
    · exact (List.tail_suffix s).trans (List.suffix_cons c s)
    · exact ih.trans (List.suffix_cons c s)

theorem readCppStyleComment_suffix (s : Bytes) : readCppStyleComment s <:+ s := by
  induction s with
  | nil => exact List.suffix_rfl
  | cons c s ih =>
    unfold readCppStyleComment
    split
    · exact List.suffix_cons c s
    · exact ih.trans (List.suffix_cons c s)

theorem readComment_suffix (s : Bytes) : (readComment s).2 <:+ s := by
  unfold readComment
  have hnext := getNextChar_suffix s
  dsimp only
  split_ifs
  · exact (readCStyleComment_suffix _).trans hnext
  · exact (readCppStyleComment_suffix _).trans hnext
  · exact hnext

theorem readString_suffix (s : Bytes) : (readString s).2 <:+ s := by
  fun_induction readString s with
  | case1 => exact List.suffix_rfl
  | case2 c => exact List.nil_suffix
  | case3 c' s ih => exact ih.trans ((List.suffix_cons c' s).trans (List.suffix_cons 92 _))
  | case4 c' s h => exact List.suffix_cons 34 _
  | case5 c c' s h h' ih => exact ih.trans (List.suffix_cons c _)

theorem suffix_ite {p : Prop} [Decidable p] {a b : TokenType × Bool × Bytes} {s : Bytes}
    (ha : a.2.2 <:+ s) (hb : b.2.2 <:+ s) : (if p then a else b).2.2 <:+ s := by
  split
  · exact ha
  · exact hb

theorem readTokenSwitch_suffix (c : UInt8) (s : Bytes) : (readTokenSwitch c s).2.2 <:+ s := by
  have hs : s <:+ s := List.suffix_rfl
  have hmatch := fun pattern => matchPattern_suffix pattern s
  unfold readTokenSwitch
  refine suffix_ite hs <| suffix_ite hs <| suffix_ite hs <| suffix_ite hs ?_
  refine suffix_ite (readString_suffix s) <| suffix_ite (readComment_suffix s) ?_
  refine suffix_ite (List.dropWhile_suffix _) ?_
  refine suffix_ite (hmatch _) <| suffix_ite (hmatch _) <| suffix_ite (hmatch _) ?_
  exact suffix_ite hs <| suffix_ite hs <| suffix_ite hs hs

theorem readToken_rest (s : Bytes) :
    (readToken s).2 = (readTokenSwitch (getNextChar (skipSpaces s)).1
      (getNextChar (skipSpaces s)).2).2.2 := rfl

theorem readToken_suffix_skipSpaces (s : Bytes) :
    (readToken s).2 <:+ (getNextChar (skipSpaces s)).2 := by
  rw [readToken_rest]
  exact readTokenSwitch_suffix _ _

/-- Nothing is put back. -/
theorem readToken_suffix (s : Bytes) : (readToken s).2 <:+ s :=
  (readToken_suffix_skipSpaces s).trans ((getNextChar_suffix _).trans (skipSpaces_suffix s))

/-- The text of a token and what is left are what follows the white space. -/
theorem readToken_text (s : Bytes) : (readToken s).1.text ++ (readToken s).2 = skipSpaces s := by
  have hsuffix := (readToken_suffix_skipSpaces s).trans (getNextChar_suffix (skipSpaces s))
  obtain ⟨t, ht⟩ := hsuffix
  show (skipSpaces s).take ((skipSpaces s).length - (readToken s).2.length) ++ _ = _
  rw [← ht, List.length_append, Nat.add_sub_cancel, List.take_left]

/-- **A token takes a byte.** Only at the end nothing is taken, and that is the end of the stream.
-/
theorem readToken_shorter {s : Bytes} (h : (readToken s).1.type ≠ .endOfStream) :
    (readToken s).2.length < s.length := by
  refine lt_of_lt_of_le ?_ (skipSpaces_suffix s).length_le
  cases hs : skipSpaces s with
  | nil =>
    refine absurd ?_ h
    show (if _ then _ else _) = _
    rw [hs]
    rfl
  | cons c rest =>
    have hsuffix := readToken_suffix_skipSpaces s
    rw [hs] at hsuffix
    exact Nat.lt_succ_of_le hsuffix.length_le

/-! ## White space -/

theorem skipSpaces_eq (s : Bytes) : skipSpaces s = s.dropWhile isWs := by
  unfold skipSpaces
  congr 1
  funext c
  simp only [isWs, Bool.or_assoc, Bool.or_comm (c == 13)]

theorem skipSpaces_ws {w : Bytes} (hw : IsWs w) (s : Bytes) :
    skipSpaces (w ++ s) = skipSpaces s := by
  rw [skipSpaces_eq, skipSpaces_eq, List.dropWhile_append_of_pos hw]

theorem skipSpaces_cons {c : UInt8} (hc : isWs c = false) (s : Bytes) :
    skipSpaces (c :: s) = c :: s := by
  rw [skipSpaces_eq, List.dropWhile_cons_of_neg (by simp [hc])]

theorem skipSpaces_of_ws {w : Bytes} (hw : IsWs w) : skipSpaces w = [] := by
  rw [skipSpaces_eq, List.dropWhile_eq_nil_iff]
  exact hw

/-! ## What a token starts with -/

section

variable {w t s : Bytes} {c : UInt8} {type : TokenType}

/-- A token whose `switch` takes `t`. -/
theorem readToken_of (hw : IsWs w) (hc : isWs c = false)
    (h : readTokenSwitch c (t ++ s) = (type, true, s)) :
    readToken (w ++ c :: (t ++ s)) = (⟨type, c :: t⟩, s) := by
  unfold readToken
  rw [skipSpaces_ws hw, skipSpaces_cons hc]
  simp only [getNextChar, h, List.length_cons, List.length_append, if_true]
  rw [show t.length + s.length + 1 - s.length = t.length + 1 by omega, List.take_succ_cons,
    List.take_left]

theorem nextToken_eq (h : (readToken s).1.type ≠ .comment) : nextToken s = readToken s := by
  unfold nextToken
  cases s with
  | nil => rfl
  | cons c s => exact if_neg h

theorem nextToken_of (hw : IsWs w) (hc : isWs c = false)
    (h : readTokenSwitch c (t ++ s) = (type, true, s)) (hne : type ≠ .comment) :
    nextToken (w ++ c :: (t ++ s)) = (⟨type, c :: t⟩, s) := by
  have hread := readToken_of hw hc h
  rw [nextToken_eq (by rw [hread]; exact hne), hread]

/-- The end of the document. -/
theorem readToken_end (hw : IsWs w) : readToken w = (⟨.endOfStream, []⟩, []) := by
  unfold readToken
  rw [skipSpaces_of_ws hw]
  rfl

end

theorem matchPattern_append (p s : Bytes) : matchPattern p (p ++ s) = (true, s) := by
  unfold matchPattern
  rw [if_pos (List.prefix_append p s), List.drop_left]

/-! ## Strings and numbers -/

theorem readTokenSwitch_number {c : UInt8} (hc : 48 ≤ c ∧ c ≤ 57 ∨ c = 45) (s : Bytes) :
    readTokenSwitch c s = (.number, true, readNumber s) := by
  have hne : ∀ b : UInt8, ¬ (48 ≤ b ∧ b ≤ 57 ∨ b = 45) → c ≠ b := fun b hb h => hb (h ▸ hc)
  unfold readTokenSwitch
  rw [if_neg (hne 123 (by decide)), if_neg (hne 125 (by decide)), if_neg (hne 91 (by decide)),
    if_neg (hne 93 (by decide)), if_neg (hne 34 (by decide)), if_neg (hne 47 (by decide)),
    if_pos hc]

/-- Behind this a number does not go on. -/
def Ends (s : Bytes) : Prop := ∀ c ∈ s.head?, isNumberChar c = false

theorem readNumber_append {t s : Bytes} (ht : ∀ c ∈ t, isNumberChar c = true) (hs : Ends s) :
    readNumber (t ++ s) = s := by
  unfold readNumber
  rw [List.dropWhile_append_of_pos ht]
  cases s with
  | nil => rfl
  | cons c s => exact List.dropWhile_cons_of_neg (by simp [hs c rfl])

theorem readString_cons {c : UInt8} (hc : c ≠ 92) (hc' : c ≠ 34) (s : Bytes) :
    readString (c :: s) = readString s := by
  cases s with
  | nil => simp [readString, hc']
  | cons c' s => rw [readString, if_neg hc, if_neg hc']

theorem readString_escape (c : UInt8) (s : Bytes) : readString (92 :: c :: s) = readString s := by
  rw [readString, if_pos rfl]

theorem readString_quote (s : Bytes) : readString (34 :: s) = (true, s) := by
  cases s with
  | nil => rfl
  | cons c s => rfl

/-! ## What the text of a token is -/

/-- What the `switch` says of the tokens that open a value or are a number. -/
structure Switched (c : UInt8) (s : Bytes) (r : TokenType × Bool × Bytes) : Prop where
  objectBegin : r.1 = .objectBegin → c = 123 ∧ r.2.2 = s
  arrayBegin : r.1 = .arrayBegin → c = 91 ∧ r.2.2 = s
  number : r.1 = .number → isNumberChar c = true ∧ r.2.2 = readNumber s

theorem switched_other {c : UInt8} {s : Bytes} {type : TokenType} {r : Bool × Bytes}
    (ho : type ≠ .objectBegin) (ha : type ≠ .arrayBegin) (hn : type ≠ .number) :
    Switched c s (type, r) := ⟨fun h => absurd h ho, fun h => absurd h ha, fun h => absurd h hn⟩

theorem switched_readTokenSwitch (c : UInt8) (s : Bytes) : Switched c s (readTokenSwitch c s) := by
  unfold readTokenSwitch
  repeat' refine iteInduction (motive := Switched c s) (fun h => ?_) fun _ => ?_
  all_goals first
    | exact switched_other (by decide) (by decide) (by decide)
    | exact ⟨fun _ => ⟨h, rfl⟩, nofun, nofun⟩
    | exact ⟨nofun, fun _ => ⟨h, rfl⟩, nofun⟩
    | refine ⟨nofun, nofun, fun _ => ⟨?_, rfl⟩⟩
  rcases h with ⟨hlo, hhi⟩ | rfl
  · simp [isNumberChar, hlo, hhi]
  · rfl

/-- A token that is no error and not at the end: its first character, and the `switch` for it. -/
theorem readToken_cases (s : Bytes) :
    (readToken s).1.type = .error ∨ (readToken s).1.type = .endOfStream ∨
      ∃ c r, skipSpaces s = c :: r ∧ (readToken s).1.type = (readTokenSwitch c r).1 ∧
        (readToken s).2 = (readTokenSwitch c r).2.2 := by
  cases hs : skipSpaces s with
  | nil =>
    refine .inr (.inl ?_)
    show (if _ then _ else _) = _
    rw [hs]
    rfl
  | cons c r =>
    have htype : (readToken s).1.type =
        if (readTokenSwitch c r).2.1 then (readTokenSwitch c r).1 else .error := by
      show (if _ then _ else _) = _
      rw [hs]
      rfl
    cases hok : (readTokenSwitch c r).2.1 with
    | true =>
      rw [hok, if_pos rfl] at htype
      refine .inr (.inr ⟨c, r, rfl, htype, ?_⟩)
      rw [readToken_rest, hs]
      rfl
    | false =>
      rw [hok, if_neg (by decide)] at htype
      exact .inl htype

theorem text_eq_of_rest {s r : Bytes} {c : UInt8} (hs : skipSpaces s = c :: r)
    (h : (readToken s).2 = r) : (readToken s).1.text = [c] := by
  have htext := readToken_text s
  rw [hs, h] at htext
  exact List.append_cancel_right (htext.trans (List.singleton_append).symm)

/-- **The text of a token** that opens a value, or is a number. -/
theorem readToken_shape (s : Bytes) :
    ((readToken s).1.type = .objectBegin → (readToken s).1.text = [123]) ∧
      ((readToken s).1.type = .arrayBegin → (readToken s).1.text = [91]) ∧
      ((readToken s).1.type = .number → ∀ c ∈ (readToken s).1.text, isNumberChar c = true) := by
  rcases readToken_cases s with h | h | ⟨c, r, hs, htype, hrest⟩
  · rw [h]
    exact ⟨nofun, nofun, nofun⟩
  · rw [h]
    exact ⟨nofun, nofun, nofun⟩
  · have hsw := switched_readTokenSwitch c r
    rw [htype]
    refine ⟨fun h => ?_, fun h => ?_, fun h => ?_⟩
    · obtain ⟨rfl, hr⟩ := hsw.objectBegin h
      exact text_eq_of_rest hs (hrest.trans hr)
    · obtain ⟨rfl, hr⟩ := hsw.arrayBegin h
      exact text_eq_of_rest hs (hrest.trans hr)
    · obtain ⟨hc, hr⟩ := hsw.number h
      have htext := readToken_text s
      have hsplit : c :: r = (c :: r.takeWhile isNumberChar) ++ readNumber r := by
        rw [List.cons_append, readNumber, List.takeWhile_append_dropWhile]
      rw [hs, hrest, hr, hsplit] at htext
      rw [List.append_cancel_right htext]
      exact List.forall_mem_cons.mpr ⟨hc, fun b hb => List.mem_takeWhile_imp hb⟩

/-! ## Tokens behind comments -/

theorem skipCommentTokens_succ (n : Nat) (s : Bytes) :
    skipCommentTokens (n + 1) s =
      if (readToken s).1.type = .comment then skipCommentTokens n (readToken s).2
      else readToken s := rfl

theorem skipCommentTokens_eq (n : Nat) (s : Bytes) :
    ∃ s', s' <:+ s ∧ skipCommentTokens n s = readToken s' := by
  induction n generalizing s with
  | zero => exact ⟨s, List.suffix_rfl, rfl⟩
  | succ n ih =>
    rw [skipCommentTokens_succ]
    by_cases h : (readToken s).1.type = .comment
    · obtain ⟨s', hs', heq⟩ := ih (readToken s).2
      exact ⟨s', hs'.trans (readToken_suffix s), by rw [if_pos h, heq]⟩
    · exact ⟨s, List.suffix_rfl, by rw [if_neg h]⟩

/-- Behind the comments stands a token of the same document. -/
theorem nextToken_cases (s : Bytes) : ∃ s', s' <:+ s ∧ nextToken s = readToken s' :=
  skipCommentTokens_eq s.length s

theorem skipCommentTokens_ne_comment (n : Nat) {s : Bytes} (h : s.length ≤ n) :
    (skipCommentTokens n s).1.type ≠ .comment := by
  induction n generalizing s with
  | zero =>
    rw [List.length_eq_zero_iff.mp (Nat.le_zero.mp h)]
    decide
  | succ n ih =>
    rw [skipCommentTokens_succ]
    by_cases hc : (readToken s).1.type = .comment
    · rw [if_pos hc]
      have := readToken_shorter (s := s) (by rw [hc]; decide)
      exact ih (by omega)
    · rw [if_neg hc]
      exact hc

/-- The bound of `nextToken` is not what ends the comments. -/
theorem nextToken_ne_comment (s : Bytes) : (nextToken s).1.type ≠ .comment :=
  skipCommentTokens_ne_comment s.length le_rfl

theorem nextToken_suffix (s : Bytes) : (nextToken s).2 <:+ s := by
  obtain ⟨s', hs', heq⟩ := nextToken_cases s
  rw [heq]
  exact (readToken_suffix s').trans hs'

theorem nextToken_shorter {s : Bytes} (h : (nextToken s).1.type ≠ .endOfStream) :
    (nextToken s).2.length < s.length := by
  obtain ⟨s', hs', heq⟩ := nextToken_cases s
  rw [heq] at h ⊢
  exact lt_of_lt_of_le (readToken_shorter h) hs'.length_le

/-- The text of the token and what is left stand in the document. -/
theorem nextToken_text (s : Bytes) : (nextToken s).1.text ++ (nextToken s).2 <:+ s := by
  obtain ⟨s', hs', heq⟩ := nextToken_cases s
  rw [heq, readToken_text]
  exact (skipSpaces_suffix s').trans hs'

theorem nextToken_shape (s : Bytes) :
    ((nextToken s).1.type = .objectBegin → (nextToken s).1.text = [123]) ∧
      ((nextToken s).1.type = .arrayBegin → (nextToken s).1.text = [91]) ∧
      ((nextToken s).1.type = .number → ∀ c ∈ (nextToken s).1.text, isNumberChar c = true) := by
  obtain ⟨s', -, heq⟩ := nextToken_cases s
  rw [heq]
  exact readToken_shape s'

end Domq.Jsoncpp
