import Domq.Jsoncpp.Token
import Domq.Mq.JsonRpc

/-!
# `Json::Reader`

`Reader::parse` of a document (`json_reader.cpp`), with the features every caller has: comments are
allowed and the root may be any value.

* `scan` stands for `sscanf` with `%lf`, followed by the conversion of the number to `Int`.
* `Outcome.overrun` is the write behind `buffer` in `decodeDouble`. `Outcome.deep` is the end of the
  stack: the model has room for a given number of nested calls of `readValue`.
* `Outcome.failed` is the result false; what was read until then is dropped by every caller.
* The loops of `readObject`, `readArray` and `recoverFromError` have a bound, and `Outcome.diverges`
  says that it was used up.

Result: `codePointToUTF8_eq`: the function writes the code points in UTF-8.
-/

namespace Domq.Jsoncpp

open Domq.Lib Domq.Mq

/-- What reading comes to; `rest` is what is left of the document. -/
inductive Outcome (α : Type)
  | ok (a : α) (rest : Bytes)
  | failed (rest : Bytes)
  | overrun
  | deep
  | diverges

/-! ## Strings -/

/-- `codePointToUTF8`. -/
def codePointToUTF8 (cp : Nat) : Bytes :=
  if cp ≤ 0x7f then [UInt8.ofNat cp]
  else if cp ≤ 0x7FF then
    [UInt8.ofNat (0xC0 ||| (0x1f &&& (cp >>> 6))), UInt8.ofNat (0x80 ||| (0x3f &&& cp))]
  else if cp ≤ 0xFFFF then
    [UInt8.ofNat (0xE0 ||| (0xf &&& (cp >>> 12))), UInt8.ofNat (0x80 ||| (0x3f &&& (cp >>> 6))),
      UInt8.ofNat (0x80 ||| (0x3f &&& cp))]
  else if cp ≤ 0x10FFFF then
    [UInt8.ofNat (0xF0 ||| (0x7 &&& (cp >>> 18))), UInt8.ofNat (0x80 ||| (0x3f &&& (cp >>> 12))),
      UInt8.ofNat (0x80 ||| (0x3f &&& (cp >>> 6))), UInt8.ofNat (0x80 ||| (0x3f &&& cp))]
  else []

/-- Low bits put below high bits. -/
theorem or_and_eq (a i j n : Nat) (h : j ≤ i) :
    (2 ^ i * a) ||| ((2 ^ j - 1) &&& n) = n % 2 ^ j + 2 ^ i * a := by
  have hlt : n % 2 ^ j < 2 ^ i :=
    lt_of_lt_of_le (Nat.mod_lt _ (Nat.two_pow_pos j)) (Nat.pow_le_pow_right (by decide) h)
  rw [Nat.and_comm, Nat.and_two_pow_sub_one_eq_mod, ← Nat.two_pow_add_eq_or_of_lt hlt, Nat.add_comm]

/-- `codePointToUTF8` writes a code point in UTF-8. -/
theorem codePointToUTF8_eq {n : Nat} (h : n < 0xD800 ∨ 0xDFFF < n ∧ n ≤ 0x10FFFF) :
    codePointToUTF8 n = utf8 n := by
  have hv : (Char.ofNat n).val.toNat = n := by
    have : n.isValidChar := h.imp id fun h => ⟨h.1, by omega⟩
    rw [Char.ofNat, dif_pos this]
    rfl
  have e6 : n >>> 6 = n / 64 := Nat.shiftRight_eq_div_pow n 6
  have e12 : n >>> 12 = n / 4096 := Nat.shiftRight_eq_div_pow n 12
  have e18 : n >>> 18 = n / 262144 := Nat.shiftRight_eq_div_pow n 18
  have h2 : 0xC0 ||| (0x1f &&& n / 64) = n / 64 % 32 + 0xC0 := or_and_eq 3 6 5 _ (by decide)
  have h3 : 0xE0 ||| (0xf &&& n / 4096) = n / 4096 % 16 + 0xE0 := or_and_eq 7 5 4 _ (by decide)
  have h4 : 0xF0 ||| (0x7 &&& n / 262144) = n / 262144 % 8 + 0xF0 := or_and_eq 15 4 3 _ (by decide)
  have ht : ∀ m, 0x80 ||| (0x3f &&& m) = m % 64 + 0x80 := fun m => or_and_eq 1 7 6 m (by decide)
  unfold codePointToUTF8 utf8 String.utf8EncodeChar
  dsimp only
  rw [hv, e6, e12, e18, h2, h3, h4, ht, ht, ht]
  split_ifs
  · rfl
  · rfl
  · rfl
  · rfl
  · omega

/-- `decodeUnicodeEscapeSequence`: four hexadecimal digits. -/
def decodeUnicodeEscapeSequence (s : Bytes) : Option (Nat × Bytes) :=
  if s.length < 4 then none
  else do
    let unicode ← (s.take 4).foldlM (fun unicode c => (hexVal c).map (unicode * 16 + ·)) 0
    return (unicode, s.drop 4)

/-- `decodeUnicodeCodePoint`; the second half of a pair may be any code. -/
def decodeUnicodeCodePoint (s : Bytes) : Option (Nat × Bytes) := do
  let (unicode, s) ← decodeUnicodeEscapeSequence s
  if 0xD800 ≤ unicode ∧ unicode ≤ 0xDBFF then
    if s.length < 6 then none
    else if s.take 2 = [92, 117] then
      let (surrogatePair, s) ← decodeUnicodeEscapeSequence (s.drop 2)
      return (0x10000 + ((unicode &&& 0x3FF) <<< 10) + (surrogatePair &&& 0x3FF), s)
    else none
  else return (unicode, s)

theorem decodeUnicodeEscapeSequence_suffix {s s' : Bytes} {n : Nat}
    (h : decodeUnicodeEscapeSequence s = some (n, s')) : s' <:+ s := by
  unfold decodeUnicodeEscapeSequence at h
  split at h
  · cases h
  · obtain ⟨m, -, hm⟩ := Option.bind_eq_some_iff.mp h
    cases hm
    exact List.drop_suffix 4 s

theorem decodeUnicodeCodePoint_suffix {s s' : Bytes} {n : Nat}
    (h : decodeUnicodeCodePoint s = some (n, s')) : s' <:+ s := by
  obtain ⟨⟨m, r⟩, hm, h⟩ := Option.bind_eq_some_iff.mp h
  have hr := decodeUnicodeEscapeSequence_suffix hm
  dsimp only at h
  split_ifs at h
  · obtain ⟨⟨m', r'⟩, hm', h⟩ := Option.bind_eq_some_iff.mp h
    cases h
    exact (decodeUnicodeEscapeSequence_suffix hm').trans ((List.drop_suffix 2 r).trans hr)
  · cases h
    exact hr

/-- The loop of `decodeString`, between the quotation marks; nothing for a bad escape sequence. -/
def decodeStringLoop : Bytes → Option Bytes
  | [] => some []
  | c :: s =>
    if c = 34 then some []
    else if c = 92 then
      match s with
      | [] => none
      | 34 :: s => (decodeStringLoop s).map (34 :: ·)
      | 47 :: s => (decodeStringLoop s).map (47 :: ·)
      | 92 :: s => (decodeStringLoop s).map (92 :: ·)
      | 98 :: s => (decodeStringLoop s).map (8 :: ·)
      | 102 :: s => (decodeStringLoop s).map (12 :: ·)
      | 110 :: s => (decodeStringLoop s).map (10 :: ·)
      | 114 :: s => (decodeStringLoop s).map (13 :: ·)
      | 116 :: s => (decodeStringLoop s).map (9 :: ·)
      | 117 :: s =>
        match h : decodeUnicodeCodePoint s with
        | none => none
        | some (unicode, rest) =>
          have := (decodeUnicodeCodePoint_suffix h).length_le
          (decodeStringLoop rest).map (codePointToUTF8 unicode ++ ·)
      | _ :: _ => none
    else (decodeStringLoop s).map (c :: ·)
termination_by s => s.length

/-- `decodeString`, of the token with its quotation marks. -/
def decodeString (text : Bytes) : Option Bytes := decodeStringLoop text.tail.dropLast

/-- `Value(const std::string&)`, which takes the length as an `unsigned int`. -/
def ofStdString (s : Bytes) : Json :=
  let length := s.length % 2 ^ 32
  let length := if length = 2 ^ 32 - 1 then (CStr.ofBytes s).bytes.length % 2 ^ 32 else length
  .string (CStr.ofBytes (s.take length))

/-! ## Numbers -/

/-- `decodeDouble`, of a token with this text. -/
def decodeDouble (scan : Bytes → Option Double) (text rest : Bytes) : Outcome Json :=
  let length := (Int32.ofNat text.length).toInt
  -- `buffer` has 32 characters, and `buffer[length] = 0` follows the copy
  if length ≤ 32 ∧ ¬ (0 ≤ length ∧ length < 32) then .overrun
  else
    match scan text with
    | none => .failed rest
    | some value => .ok (.real value) rest

/-- `isDouble`. -/
def isDouble (text : Bytes) : Bool :=
  (text.any fun c => c == 46 || c == 101 || c == 69 || c == 43) || text.tail.any fun c => c == 45

/-- The loop of `decodeNumber`: the value of the digits, `none` for another character, and
`some none` where `decodeDouble` is called. -/
def decodeDigits (threshold : Nat) : Nat → Bytes → Option (Option Nat)
  | value, [] => some (some value)
  | value, c :: s =>
    if c < 48 ∨ 57 < c then none
    else if threshold ≤ value then some none
    else decodeDigits threshold (value * 10 + (c.toNat - 48)) s

/-- `decodeNumber`, of a token with this text. -/
def decodeNumber (scan : Bytes → Option Double) (text rest : Bytes) : Outcome Json :=
  if isDouble text then decodeDouble scan text rest
  else
    let isNegative : Bool := text.head? = some 45
    let threshold := (if isNegative then 2 ^ 63 else 2 ^ 64 - 1) / 10
    match decodeDigits threshold 0 (if isNegative then text.tail else text) with
    | none => .failed rest
    | some none => decodeDouble scan text rest
    | some (some value) =>
      if isNegative then .ok (.int (-Int64.ofNat value)) rest
      else if value ≤ 2 ^ 63 - 1 then .ok (.int (Int64.ofNat value)) rest
      else .ok (.uint (UInt64.ofNat value)) rest

/-! ## Errors -/

/-- `recoverFromError`. -/
def recoverFromError {α : Type} (skipUntilToken : TokenType) : Nat → Bytes → Outcome α
  | 0, _ => .diverges
  | n + 1, s =>
    let (skip, rest) := readToken s
    if skip.type = skipUntilToken ∨ skip.type = .endOfStream then .failed rest
    else recoverFromError skipUntilToken n rest

/-- `return recoverFromError(skipUntilToken)`. -/
def recover {α : Type} (skipUntilToken : TokenType) (s : Bytes) : Outcome α :=
  recoverFromError skipUntilToken (s.length + 1) s

/-! ## Arrays and objects -/

/-- Assignment to a member; the map of an object is ordered by `strcmp`. -/
def insertMember (name : CStr) (x : Json) : List (CStr × Json) → List (CStr × Json)
  | [] => [(name, x)]
  | (n, v) :: ms =>
    if name = n then (name, x) :: ms
    else if name.bytes < n.bytes then (name, x) :: (n, v) :: ms
    else (n, v) :: insertMember name x ms

/-- The loop of `readArray`, with the elements so far; `readValue` reads an element. Between two
elements any token is skipped that is no comment, since `badTokenType` is always false. -/
def readElements (readValue : Bytes → Outcome Json) : Nat → List Json → Bytes → Outcome Json
  | 0, _, _ => .diverges
  | n + 1, elements, s =>
    match readValue s with
    | .ok value rest =>
      let (token, rest) := nextToken rest
      if token.type = .arrayEnd then .ok (.array (elements ++ [value])) rest
      else readElements readValue n (elements ++ [value]) rest
    | .failed rest => recover .arrayEnd rest
    | .overrun => .overrun
    | .deep => .deep
    | .diverges => .diverges

/-- `readArray`, behind the bracket. -/
def readArray (readValue : Bytes → Outcome Json) (s : Bytes) : Outcome Json :=
  let start := skipSpaces s
  if start.head? = some 93 then .ok (.array []) (readToken start).2
  else readElements readValue (start.length + 1) [] start

/-- The end of a member in `readObject`: the comma, or a comment and then any token; nothing where
`addErrorAndRecover` is called. -/
def readComma (s : Bytes) : Option (Token × Bytes) :=
  let (comma, rest) := readToken s
  if comma.type = .objectEnd ∨ comma.type = .arraySeparator then some (comma, rest)
  else if comma.type = .comment then some (nextToken rest)
  else none

/-- The loop of `readObject`, with the name of the last member and the members so far. -/
def readMembers (readValue : Bytes → Outcome Json) :
    Nat → Bytes → List (CStr × Json) → Bytes → Outcome Json
  | 0, _, _, _ => .diverges
  | n + 1, name, members, s =>
    let (tokenName, rest) := nextToken s
    if tokenName.type = .objectEnd ∧ name = [] then .ok (.object members) rest
    else if tokenName.type ≠ .string then recover .objectEnd rest
    else
      match decodeString tokenName.text with
      | none => recover .objectEnd rest
      | some name =>
        let (colon, rest) := readToken rest
        if colon.type ≠ .memberSeparator then recover .objectEnd rest
        else
          match readValue rest with
          | .ok value rest =>
            let members := insertMember (CStr.ofBytes name) value members
            match readComma rest with
            | none => recover .objectEnd (readToken rest).2
            | some (comma, rest) =>
              if comma.type = .objectEnd then .ok (.object members) rest
              else readMembers readValue n name members rest
          | .failed rest => recover .objectEnd rest
          | .overrun => .overrun
          | .deep => .deep
          | .diverges => .diverges

/-- `readObject`, behind the brace. -/
def readObject (readValue : Bytes → Outcome Json) (s : Bytes) : Outcome Json :=
  readMembers readValue (s.length + 1) [] [] s

/-! ## Values -/

/-- `readValue`, with room on the stack for this many calls. -/
def readValue (scan : Bytes → Option Double) : Nat → Bytes → Outcome Json
  | 0, _ => .deep
  | depth + 1, s =>
    let (token, rest) := nextToken s
    match token.type with
    | .objectBegin => readObject (readValue scan depth) rest
    | .arrayBegin => readArray (readValue scan depth) rest
    | .number => decodeNumber scan token.text rest
    | .string =>
      match decodeString token.text with
      | none => .failed rest
      | some decoded => .ok (ofStdString decoded) rest
    | .true => .ok (.boolean true) rest
    | .false => .ok (.boolean false) rest
    | .null => .ok .null rest
    | _ => .failed rest

/-- `parse`; what follows the value is not looked at, apart from comments. -/
def parse (scan : Bytes → Option Double) (depth : Nat) (document : Bytes) : Outcome Json :=
  match readValue scan depth document with
  | .ok root rest => .ok root (nextToken rest).2
  | .failed rest => .failed (nextToken rest).2
  | .overrun => .overrun
  | .deep => .deep
  | .diverges => .diverges

end Domq.Jsoncpp
