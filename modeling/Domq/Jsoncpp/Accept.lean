import Domq.Jsoncpp.Scalar

/-!
# The reader on JSON texts

`Reader::parse` on a document that is a JSON text, without lone surrogates (the reader reports an
error for a high one).

* `load v`: the `Json::Value` that the tree `v` becomes.
* `fate d v`: how reading ends. A number of 32 characters makes `decodeDouble` write behind its
  buffer, and each level of nesting takes one recursive call of `readValue`; `depth` is how many of
  them the stack has room for.

`ReadsAs v` is the induction hypothesis: every text of `v`, with anything behind it that does not
continue a number, is read as `v`. It is shown for a tree from its subtrees (`Tree.induct`), and for
the elements of an array and the members of an object by induction on their texts.

Result: `jsonText_parsed`.
-/

namespace Domq.Jsoncpp

open Domq.Lib Domq.Mq

/-! ## What is read -/

mutual

/-- What the reader makes of a tree. Strings and names end at their first NUL; of members with the
same name the last one stays. -/
def load (scan : Bytes → Option Double) : Tree → Json
  | .null => .null
  | .boolean b => .boolean b
  | .number t => loadNumber scan t
  | .string s => .string (CStr.ofBytes s)
  | .array vs => .array (loadElements scan vs)
  | .object ms => .object (loadMembers scan [] ms)

def loadElements (scan : Bytes → Option Double) : List Tree → List Json
  | [] => []
  | v :: vs => load scan v :: loadElements scan vs

def loadMembers (scan : Bytes → Option Double) (members : List (CStr × Json)) :
    List (Bytes × Tree) → List (CStr × Json)
  | [] => members
  | (n, v) :: ms => loadMembers scan (insertMember (CStr.ofBytes n) (load scan v) members) ms

end

/-- How reading a tree ends. -/
inductive Fate
  | fine | overrun | deep
  deriving DecidableEq

namespace Fate

/-- One after the other. -/
def andThen : Fate → Fate → Fate
  | .fine, g => g
  | .overrun, _ => .overrun
  | .deep, _ => .deep

def outcome (f : Fate) (v : Json) (rest : Bytes) : Outcome Json :=
  match f with
  | .fine => .ok v rest
  | .overrun => .overrun
  | .deep => .deep

theorem andThen_eq_fine {f g : Fate} : f.andThen g = .fine ↔ f = .fine ∧ g = .fine := by
  cases f <;> simp [andThen]

end Fate

mutual

/-- How reading a tree ends, with room for this many calls. -/
def fate : Nat → Tree → Fate
  | 0, _ => .deep
  | _ + 1, .number t => if t.length = 32 then .overrun else .fine
  | d + 1, .array vs => fateElements d vs
  | d + 1, .object ms => fateMembers d ms
  | _ + 1, _ => .fine

def fateElements : Nat → List Tree → Fate
  | _, [] => .fine
  | d, v :: vs => (fate d v).andThen (fateElements d vs)

def fateMembers : Nat → List (Bytes × Tree) → Fate
  | _, [] => .fine
  | d, (_, v) :: ms => (fate d v).andThen (fateMembers d ms)

end

/-! ## One step of the reader -/

section

variable {scan : Bytes → Option Double} {d : Nat} {w t s : Bytes}

/-- A character that is no part of a number ends one, white space before it or not. -/
theorem ends_ws (hw : IsWs w) {c : UInt8} (hc : isNumberChar c = false) (s : Bytes) :
    Ends (w ++ c :: s) := by
  intro b hb
  cases w with
  | nil =>
    cases hb
    exact hc
  | cons a w =>
    cases hb
    have hb := hw b List.mem_cons_self
    simp only [isWs, Bool.or_eq_true, beq_iff_eq] at hb
    rcases hb with ((rfl | rfl) | rfl) | rfl <;> rfl

/-- A token of one character. -/
theorem nextToken_char {c : UInt8} {type : TokenType} (hw : IsWs w) (hc : isWs c = false)
    (h : readTokenSwitch c s = (type, true, s)) (hne : type ≠ .comment) :
    nextToken (w ++ c :: s) = (⟨type, [c]⟩, s) := nextToken_of (t := []) hw hc h hne

theorem readToken_char {c : UInt8} {type : TokenType} (hw : IsWs w) (hc : isWs c = false)
    (h : readTokenSwitch c s = (type, true, s)) :
    readToken (w ++ c :: s) = (⟨type, [c]⟩, s) := readToken_of (t := []) hw hc h

theorem nextToken_string {b : Bytes} (hw : IsWs w) (h : StringText t b) :
    nextToken (w ++ (quoted t ++ s)) = (⟨.string, quoted t⟩, s) := by
  have hswitch : readTokenSwitch 34 ((t ++ [34]) ++ s) = (.string, true, s) := by
    rw [List.append_assoc]
    show (TokenType.string, readString (t ++ 34 :: s)) = _
    rw [readString_text h]
  exact nextToken_of hw (by decide) hswitch (by decide)

theorem readValue_null (hw : IsWs w) :
    readValue scan (d + 1) (w ++ (ascii "null" ++ s)) = .ok .null s := by
  have hswitch : readTokenSwitch 110 (ascii "ull" ++ s) = (.null, true, s) :=
    congrArg (Prod.mk TokenType.null) (matchPattern_append _ s)
  have hnext : nextToken (w ++ (ascii "null" ++ s)) = (⟨.null, ascii "null"⟩, s) :=
    nextToken_of hw (by decide) hswitch (by decide)
  rw [readValue, hnext]

theorem readValue_true (hw : IsWs w) :
    readValue scan (d + 1) (w ++ (ascii "true" ++ s)) = .ok (.boolean true) s := by
  have hswitch : readTokenSwitch 116 (ascii "rue" ++ s) = (.true, true, s) :=
    congrArg (Prod.mk TokenType.true) (matchPattern_append _ s)
  have hnext : nextToken (w ++ (ascii "true" ++ s)) = (⟨.true, ascii "true"⟩, s) :=
    nextToken_of hw (by decide) hswitch (by decide)
  rw [readValue, hnext]

theorem readValue_false (hw : IsWs w) :
    readValue scan (d + 1) (w ++ (ascii "false" ++ s)) = .ok (.boolean false) s := by
  have hswitch : readTokenSwitch 102 (ascii "alse" ++ s) = (.false, true, s) :=
    congrArg (Prod.mk TokenType.false) (matchPattern_append _ s)
  have hnext : nextToken (w ++ (ascii "false" ++ s)) = (⟨.false, ascii "false"⟩, s) :=
    nextToken_of hw (by decide) hswitch (by decide)
  rw [readValue, hnext]

theorem readValue_number (hw : IsWs w) (h : IsNumber t) (hscan : (scan t).isSome)
    (hlen : t.length < 2 ^ 31) (hs : Ends s) :
    readValue scan (d + 1) (w ++ (t ++ s)) =
      if t.length = 32 then .overrun else .ok (loadNumber scan t) s := by
  have hall := number_all h
  obtain ⟨c, ts, rfl, hc⟩ := number_head h
  have hws : isWs c = false := by
    rw [Bool.eq_false_iff]
    intro hws
    simp only [isWs, Bool.or_eq_true, beq_iff_eq] at hws
    rcases hws with ((rfl | rfl) | rfl) | rfl <;> revert hc <;> decide
  have hswitch : readTokenSwitch c (ts ++ s) = (.number, true, s) := by
    rw [readTokenSwitch_number hc, readNumber_append (List.forall_mem_cons.mp hall).2 hs]
  have hnext : nextToken (w ++ (c :: ts ++ s)) = (⟨.number, c :: ts⟩, s) :=
    nextToken_of hw hws hswitch (by decide)
  rw [readValue, hnext]
  exact decodeNumber_number h hscan hlen s

theorem readValue_string {b : Bytes} (hw : IsWs w) (h : StringText t b)
    (hlen : b.length < 2 ^ 32 - 1) :
    readValue scan (d + 1) (w ++ (quoted t ++ s)) = .ok (.string (CStr.ofBytes b)) s := by
  rw [readValue, nextToken_string hw h]
  simp only [decodeString_quoted h]
  have hmod : b.length % 2 ^ 32 = b.length := Nat.mod_eq_of_lt (by omega)
  simp only [ofStdString, hmod]
  rw [if_neg (by omega), List.take_length]

theorem readValue_array (hw : IsWs w) :
    readValue scan (d + 1) (w ++ 91 :: s) = readArray (readValue scan d) s := by
  rw [readValue, nextToken_char hw (by decide) rfl (by decide)]

theorem readValue_object (hw : IsWs w) :
    readValue scan (d + 1) (w ++ 123 :: s) = readObject (readValue scan d) s := by
  rw [readValue, nextToken_char hw (by decide) rfl (by decide)]

end

/-! ## Arrays and objects -/

/-- What reading a text of `v` comes to, white space before it or not. -/
def ReadsAs (scan : Bytes → Option Double) (v : Tree) : Prop :=
  ∀ t, Denotes t v → t.length < 2 ^ 31 → ∀ d w rest, IsWs w → Ends rest →
    readValue scan d (w ++ (t ++ rest)) = (fate d v).outcome (load scan v) rest

theorem denotes_head {t : Bytes} {v : Tree} (h : Denotes t v) :
    ∃ c ts, t = c :: ts ∧ isWs c = false ∧ c ≠ 93 := by
  cases h with
  | null => exact ⟨110, ascii "ull", rfl, by decide, by decide⟩
  | true => exact ⟨116, ascii "rue", rfl, by decide, by decide⟩
  | false => exact ⟨102, ascii "alse", rfl, by decide, by decide⟩
  | number h =>
    obtain ⟨c, ts, rfl, hc⟩ := number_head h
    refine ⟨c, ts, rfl, ?_, ?_⟩
    · rw [Bool.eq_false_iff]
      intro hws
      simp only [isWs, Bool.or_eq_true, beq_iff_eq] at hws
      rcases hws with ((rfl | rfl) | rfl) | rfl <;> revert hc <;> decide
    · rintro rfl
      revert hc
      decide
  | string h => exact ⟨34, _, rfl, by decide, by decide⟩
  | emptyArray hw => exact ⟨91, _, rfl, by decide, by decide⟩
  | array h => exact ⟨91, _, rfl, by decide, by decide⟩
  | emptyObject hw => exact ⟨123, _, rfl, by decide, by decide⟩
  | object h => exact ⟨123, _, rfl, by decide, by decide⟩

section

variable {scan : Bytes → Option Double} {d : Nat}

theorem readElements_text {vs : List Tree} (h : ∀ v ∈ vs, ReadsAs scan v) {t : Bytes}
    (ht : Elements t vs) (hlen : t.length < 2 ^ 31) (n : Nat) (hn : t.length ≤ n)
    (elements : List Json) (rest : Bytes) :
    readElements (readValue scan d) n elements (t ++ 93 :: rest) =
      (fateElements d vs).outcome (.array (elements ++ loadElements scan vs)) rest := by
  induction vs generalizing t n elements with
  | nil => cases ht
  | cons v vs ih =>
    obtain ⟨hv, hvs⟩ := List.forall_mem_cons.mp h
    cases ht with
    | @one w t w' v hw ht hw' =>
      obtain ⟨c, ts, hcons, -, -⟩ := denotes_head ht
      obtain ⟨n, rfl⟩ : ∃ m, n = m + 1 := ⟨n - 1, by
        simp only [hcons, List.length_append, List.length_cons] at hn
        omega⟩
      simp only [List.length_append] at hlen
      have hread := hv t ht (by omega) d w (w' ++ 93 :: rest) hw (ends_ws hw' (by decide) rest)
      have hend : nextToken (w' ++ 93 :: rest) = (⟨.arrayEnd, [93]⟩, rest) :=
        nextToken_char hw' (by decide) rfl (by decide)
      simp only [List.append_assoc]
      rw [readElements, hread]
      simp only [fateElements, loadElements]
      cases fate d v with
      | fine => simp [Fate.outcome, Fate.andThen, hend]
      | overrun => rfl
      | deep => rfl
    | @cons w t w' ts v vs hw ht hw' hts =>
      obtain ⟨n, rfl⟩ : ∃ m, n = m + 1 := ⟨n - 1, by
        simp only [List.length_append, List.length_cons] at hn
        omega⟩
      simp only [List.length_append, List.length_cons] at hlen hn
      have hread := hv t ht (by omega) d w (w' ++ 44 :: (ts ++ 93 :: rest)) hw
        (ends_ws hw' (by decide) _)
      have hcomma : nextToken (w' ++ 44 :: (ts ++ 93 :: rest)) =
          (⟨.arraySeparator, [44]⟩, ts ++ 93 :: rest) :=
        nextToken_char hw' (by decide) rfl (by decide)
      simp only [List.append_assoc, List.cons_append]
      rw [readElements, hread]
      simp only [fateElements, loadElements]
      cases fate d v with
      | fine =>
        simp only [Fate.outcome, Fate.andThen, hcomma]
        rw [if_neg (by decide), ih hvs hts (by omega) n (by omega), List.append_assoc,
          List.singleton_append]
        rfl
      | overrun => rfl
      | deep => rfl

/-- The head of a member: its name and the colon. -/
theorem readMembers_head {w n name w₁ : Bytes} (hw : IsWs w) (hn : StringText n name)
    (hw₁ : IsWs w₁) (m : Nat) (last : Bytes) (members : List (CStr × Json)) (s : Bytes) :
    readMembers (readValue scan d) (m + 1) last members (w ++ (quoted n ++ (w₁ ++ 58 :: s))) =
      match readValue scan d s with
      | .ok value rest =>
        match readComma rest with
        | none => recover .objectEnd (readToken rest).2
        | some (comma, rest) =>
          if comma.type = .objectEnd then
            .ok (.object (insertMember (CStr.ofBytes name) value members)) rest
          else readMembers (readValue scan d) m name
            (insertMember (CStr.ofBytes name) value members) rest
      | .failed rest => recover .objectEnd rest
      | .overrun => .overrun
      | .deep => .deep
      | .diverges => .diverges := by
  have hcolon : readToken (w₁ ++ 58 :: s) = (⟨.memberSeparator, [58]⟩, s) :=
    readToken_char hw₁ (by decide) rfl
  rw [readMembers, nextToken_string hw hn]
  simp only [decodeString_quoted hn, hcolon]
  rfl

theorem readMembers_text {ms : List (Bytes × Tree)} (h : ∀ m ∈ ms, ReadsAs scan m.2) {t : Bytes}
    (ht : Members t ms) (hlen : t.length < 2 ^ 31) (n : Nat) (hn : t.length ≤ n) (last : Bytes)
    (members : List (CStr × Json)) (rest : Bytes) :
    readMembers (readValue scan d) n last members (t ++ 125 :: rest) =
      (fateMembers d ms).outcome (.object (loadMembers scan members ms)) rest := by
  induction ms generalizing t n last members with
  | nil => cases ht
  | cons m ms ih =>
    obtain ⟨hv, hms⟩ := List.forall_mem_cons.mp h
    cases ht with
    | @one w nm name w₁ w₂ t w' v hw hname hw₁ hw₂ ht hw' =>
      obtain ⟨n, rfl⟩ : ∃ m, n = m + 1 := ⟨n - 1, by
        simp only [List.length_append, List.length_cons] at hn
        omega⟩
      simp only [List.length_append, List.length_cons] at hlen
      have hread := hv t ht (by omega) d w₂ (w' ++ 125 :: rest) hw₂ (ends_ws hw' (by decide) rest)
      have hend : readComma (w' ++ 125 :: rest) = some (⟨.objectEnd, [125]⟩, rest) := by
        rw [readComma, readToken_char hw' (by decide) rfl]
        rfl
      simp only [List.append_assoc, List.cons_append]
      rw [readMembers_head hw hname hw₁, hread]
      simp only [fateMembers, loadMembers]
      cases fate d v with
      | fine => simp [Fate.outcome, Fate.andThen, hend]
      | overrun => rfl
      | deep => rfl
    | @cons w nm name w₁ w₂ t w' ts v ms hw hname hw₁ hw₂ ht hw' hts =>
      obtain ⟨n, rfl⟩ : ∃ m, n = m + 1 := ⟨n - 1, by
        simp only [List.length_append, List.length_cons] at hn
        omega⟩
      simp only [List.length_append, List.length_cons] at hlen hn
      have hread := hv t ht (by omega) d w₂ (w' ++ 44 :: (ts ++ 125 :: rest)) hw₂
        (ends_ws hw' (by decide) _)
      have hcomma : readComma (w' ++ 44 :: (ts ++ 125 :: rest)) =
          some (⟨.arraySeparator, [44]⟩, ts ++ 125 :: rest) := by
        rw [readComma, readToken_char hw' (by decide) rfl]
        rfl
      simp only [List.append_assoc, List.cons_append]
      rw [readMembers_head hw hname hw₁, hread]
      simp only [fateMembers, loadMembers]
      cases fate d v with
      | fine =>
        simp only [Fate.outcome, Fate.andThen, hcomma]
        rw [if_neg (by decide), ih hms hts (by omega) n (by omega)]
        rfl
      | overrun => rfl
      | deep => rfl

/-- White space in front of elements is skipped, and what follows is no bracket. -/
theorem skipSpaces_elements {vs : List Tree} {t : Bytes} (h : Elements t vs) (s : Bytes) :
    ∃ t', Elements t' vs ∧ t'.length ≤ t.length ∧ skipSpaces (t ++ s) = t' ++ s ∧
      (t' ++ s).head? ≠ some 93 := by
  have hskip : ∀ w u r : Bytes, ∀ v, IsWs w → Denotes u v →
      skipSpaces (w ++ (u ++ r)) = u ++ r ∧ (u ++ r).head? ≠ some 93 := by
    intro w u r v hw hu
    obtain ⟨c, ts, rfl, hc, hne⟩ := denotes_head hu
    rw [skipSpaces_ws hw, List.cons_append, skipSpaces_cons hc]
    exact ⟨rfl, by simpa using hne⟩
  cases h with
  | @one w u w' v hw hu hw' =>
    obtain ⟨hs, hhead⟩ := hskip w u (w' ++ s) v hw hu
    refine ⟨u ++ w', Elements.one isWs_nil hu hw', by simp, ?_, ?_⟩
    · simpa using hs
    · simpa using hhead
  | @cons w u w' ts v vs hw hu hw' hts =>
    obtain ⟨hs, hhead⟩ := hskip w u (w' ++ 44 :: (ts ++ s)) v hw hu
    refine ⟨u ++ (w' ++ 44 :: ts), Elements.cons isWs_nil hu hw' hts, by simp, ?_, ?_⟩
    · simpa using hs
    · simpa using hhead

theorem readArray_text {vs : List Tree} (h : ∀ v ∈ vs, ReadsAs scan v) {t : Bytes}
    (ht : Elements t vs) (hlen : t.length < 2 ^ 31) (rest : Bytes) :
    readArray (readValue scan d) (t ++ 93 :: rest) =
      (fateElements d vs).outcome (.array (loadElements scan vs)) rest := by
  obtain ⟨t', ht', hle, hskip, hhead⟩ := skipSpaces_elements ht (93 :: rest)
  unfold readArray
  rw [hskip]
  dsimp only
  rw [if_neg hhead, readElements_text h ht' (by omega) _ (by simp; omega), List.nil_append]

end

/-! ## The whole document -/

variable {scan : Bytes → Option Double}

/-- A character's text is no shorter than what it stands for. -/
theorem charText_length {t b : Bytes} (h : CharText t b) : b.length ≤ t.length := by
  have hutf8 : ∀ n, (utf8 n).length ≤ 4 := fun n => by
    rw [utf8, String.length_utf8EncodeChar]
    exact Char.utf8Size_le_four _
  cases h with
  | unescaped _ _ _ => exact le_rfl
  | escape _ => simp
  | @unicode h n hh _ =>
    have := hutf8 n
    cases hh
    simp only [List.length_cons, List.length_nil]
    omega
  | @surrogates h l n m hh hl _ _ _ _ =>
    have := hutf8 (0x10000 + (n - 0xD800) * 0x400 + (m - 0xDC00))
    cases hh
    cases hl
    simp only [List.length_cons, List.length_append, List.length_nil]
    omega

theorem stringText_length {t b : Bytes} (h : StringText t b) : b.length ≤ t.length := by
  induction h with
  | nil => exact le_rfl
  | cons hc _ ih =>
    have := charText_length hc
    simp only [List.length_append]
    omega

/-- Without room for a call nothing is read; with room for one, the rest is up to `h`. -/
theorem readsAs_of {v : Tree} (h : ∀ t, Denotes t v → t.length < 2 ^ 31 → ∀ d w rest, IsWs w →
    Ends rest → readValue scan (d + 1) (w ++ (t ++ rest)) =
      (fate (d + 1) v).outcome (load scan v) rest) : ReadsAs scan v := by
  intro t ht hlen d w rest hw hs
  cases d with
  | zero =>
    rw [readValue, fate]
    rfl
  | succ d => exact h t ht hlen d w rest hw hs

/-- **The reader on a value.** -/
theorem readsAs (hscan : ∀ t, IsNumber t → (scan t).isSome) (v : Tree) : ReadsAs scan v := by
  induction v using Tree.induct with
  | null =>
    refine readsAs_of fun t ht _ d w rest hw _ => ?_
    cases ht
    exact readValue_null hw
  | boolean b =>
    refine readsAs_of fun t ht _ d w rest hw _ => ?_
    cases ht with
    | true => exact readValue_true hw
    | false => exact readValue_false hw
  | number text =>
    refine readsAs_of fun t ht hlen d w rest hw hs => ?_
    cases ht with
    | number h =>
      rw [readValue_number hw h (hscan _ h) hlen hs, fate, load]
      split
      · rfl
      · rfl
  | string b =>
    refine readsAs_of fun t ht hlen d w rest hw _ => ?_
    cases ht with
    | string h =>
      have hle := stringText_length h
      simp only [quoted, List.length_cons, List.length_append] at hlen
      exact readValue_string hw h (by omega)
  | array vs ih =>
    refine readsAs_of fun t ht hlen d w rest hw _ => ?_
    cases ht with
    | @emptyArray w' hw' =>
      have hskip : skipSpaces (w' ++ 93 :: rest) = 93 :: rest := by
        rw [skipSpaces_ws hw', skipSpaces_cons (by decide)]
      have hend : readToken (93 :: rest) = (⟨.arrayEnd, [93]⟩, rest) :=
        readToken_char (w := []) isWs_nil (by decide) rfl
      simp only [List.cons_append, List.append_assoc, List.nil_append]
      rw [readValue_array hw, readArray, hskip]
      simp only [List.head?_cons, if_true, hend]
      rfl
    | array h =>
      simp only [List.length_cons, List.length_append] at hlen
      simp only [List.cons_append, List.append_assoc, List.nil_append]
      rw [readValue_array hw, readArray_text ih h (by omega), fate, load]
  | object ms ih =>
    refine readsAs_of fun t ht hlen d w rest hw _ => ?_
    cases ht with
    | @emptyObject w' hw' =>
      have hend : nextToken (w' ++ 125 :: rest) = (⟨.objectEnd, [125]⟩, rest) :=
        nextToken_char hw' (by decide) rfl (by decide)
      simp only [List.cons_append, List.append_assoc, List.nil_append]
      rw [readValue_object hw, readObject, readMembers, hend]
      rfl
    | object h =>
      simp only [List.length_cons, List.length_append] at hlen
      simp only [List.cons_append, List.append_assoc, List.nil_append]
      rw [readValue_object hw, readObject, readMembers_text ih h (by omega) _ (by simp; omega),
        fate, load]

/-! ## Which texts are read -/

theorem fateElements_eq_fine {d : Nat} {vs : List Tree} :
    fateElements d vs = .fine ↔ ∀ v ∈ vs, fate d v = .fine := by
  induction vs with
  | nil => simp [fateElements]
  | cons v vs ih => simp [fateElements, Fate.andThen_eq_fine, ih]

theorem fateMembers_eq_fine {d : Nat} {ms : List (Bytes × Tree)} :
    fateMembers d ms = .fine ↔ ∀ m ∈ ms, fate d m.2 = .fine := by
  induction ms with
  | nil => simp [fateMembers]
  | cons m ms ih =>
    obtain ⟨n, v⟩ := m
    simp only [fateMembers, Fate.andThen_eq_fine, ih, List.forall_mem_cons]

/-- A tree is read if the stack has room for its depth and no number has 32 characters. -/
theorem fate_eq_fine {d : Nat} {v : Tree} :
    fate d v = .fine ↔ v.depth ≤ d ∧ ∀ t ∈ v.numbers, t.length ≠ 32 := by
  induction v using Tree.induct generalizing d with
  | number t =>
    cases d with
    | zero => simp [fate, Tree.depth]
    | succ d => simp [fate, Tree.depth, Tree.numbers]
  | array vs ih =>
    cases d with
    | zero => simp [fate, Tree.depth]
    | succ d =>
      rw [fate, fateElements_eq_fine, Tree.depth, Tree.numbers, Nat.add_le_add_iff_right,
        Tree.depthElements_le, Tree.forall_numbersElements, ← forall₂_and]
      exact forall₂_congr fun v hv => ih v hv
  | object ms ih =>
    cases d with
    | zero => simp [fate, Tree.depth]
    | succ d =>
      rw [fate, fateMembers_eq_fine, Tree.depth, Tree.numbers, Nat.add_le_add_iff_right,
        Tree.depthMembers_le, Tree.forall_numbersMembers, ← forall₂_and]
      exact forall₂_congr fun m hm => ih m hm
  | _ => cases d <;> simp [fate, Tree.depth, Tree.numbers]

/-- **`parse` reads the JSON texts.** -/
theorem parse_jsonText (hscan : ∀ t, IsNumber t → (scan t).isSome) {document : Bytes} {v : Tree}
    (h : JsonText document v) (hlen : document.length < 2 ^ 31) (depth : Nat) :
    parse scan depth document = (fate depth v).outcome (load scan v) [] := by
  obtain ⟨w, t, w', hw, ht, hw', rfl⟩ := h
  simp only [List.length_append] at hlen
  have hends : Ends w' := by
    intro c hc
    have hws := hw' c (List.mem_of_mem_head? hc)
    simp only [isWs, Bool.or_eq_true, beq_iff_eq] at hws
    rcases hws with ((rfl | rfl) | rfl) | rfl <;> rfl
  have hend : nextToken w' = (⟨.endOfStream, []⟩, []) := by
    rw [nextToken_eq (by rw [readToken_end hw']; decide), readToken_end hw']
  rw [parse, readsAs hscan v t ht (by omega) depth w w' hw hends]
  cases fate depth v with
  | fine => simp [Fate.outcome, hend]
  | overrun => rfl
  | deep => rfl

theorem fateElements_ne_fine {d : Nat} {vs : List Tree} (h : fateElements d vs ≠ .fine) :
    ∃ v ∈ vs, fate d v = fateElements d vs := by
  induction vs with
  | nil => exact absurd rfl h
  | cons v vs ih =>
    rw [fateElements] at h ⊢
    cases hv : fate d v with
    | fine =>
      rw [hv] at h
      obtain ⟨u, hu, heq⟩ := ih h
      exact ⟨u, List.mem_cons_of_mem _ hu, heq⟩
    | overrun => exact ⟨v, List.mem_cons_self, hv⟩
    | deep => exact ⟨v, List.mem_cons_self, hv⟩

theorem fateMembers_ne_fine {d : Nat} {ms : List (Bytes × Tree)} (h : fateMembers d ms ≠ .fine) :
    ∃ m ∈ ms, fate d m.2 = fateMembers d ms := by
  induction ms with
  | nil => exact absurd rfl h
  | cons m ms ih =>
    obtain ⟨n, v⟩ := m
    rw [fateMembers] at h ⊢
    cases hv : fate d v with
    | fine =>
      rw [hv] at h
      obtain ⟨u, hu, heq⟩ := ih h
      exact ⟨u, List.mem_cons_of_mem _ hu, heq⟩
    | overrun => exact ⟨(n, v), List.mem_cons_self, hv⟩
    | deep => exact ⟨(n, v), List.mem_cons_self, hv⟩

/-- What is to blame when a tree is not read. -/
theorem blame {d : Nat} {v : Tree} :
    (fate d v = .overrun → ∃ t ∈ v.numbers, t.length = 32) ∧ (fate d v = .deep → d < v.depth) := by
  induction v using Tree.induct generalizing d with
  | number t =>
    cases d with
    | zero => simp [fate, Tree.depth]
    | succ d =>
      rw [fate, Tree.numbers]
      split
      · next h => exact ⟨fun _ => ⟨t, List.mem_singleton.mpr rfl, h⟩, nofun⟩
      · exact ⟨nofun, nofun⟩
  | array vs ih =>
    cases d with
    | zero => simp [fate, Tree.depth]
    | succ d =>
      rw [fate, Tree.depth, Tree.numbers]
      refine ⟨fun h => ?_, fun h => ?_⟩
      · obtain ⟨v, hv, heq⟩ := fateElements_ne_fine (by rw [h]; decide)
        obtain ⟨t, ht, hlen⟩ := (ih v hv).1 (heq.trans h)
        by_contra! hno
        exact Tree.forall_numbersElements.mp hno v hv t ht hlen
      · obtain ⟨v, hv, heq⟩ := fateElements_ne_fine (by rw [h]; decide)
        have hlt := (ih v hv).2 (heq.trans h)
        have hle := Tree.depthElements_le.mp le_rfl v hv
        omega
  | object ms ih =>
    cases d with
    | zero => simp [fate, Tree.depth]
    | succ d =>
      rw [fate, Tree.depth, Tree.numbers]
      refine ⟨fun h => ?_, fun h => ?_⟩
      · obtain ⟨m, hm, heq⟩ := fateMembers_ne_fine (by rw [h]; decide)
        obtain ⟨t, ht, hlen⟩ := (ih m hm).1 (heq.trans h)
        by_contra! hno
        exact Tree.forall_numbersMembers.mp hno m hm t ht hlen
      · obtain ⟨m, hm, heq⟩ := fateMembers_ne_fine (by rw [h]; decide)
        have hlt := (ih m hm).2 (heq.trans h)
        have hle := Tree.depthMembers_le.mp le_rfl m hm
        omega
  | _ => cases d <;> simp [fate, Tree.depth]

/-- **Every JSON text is read, or `parse` does not return.** Where the stack has room for the text
and no number in it has 32 characters, the value it denotes is returned. There is no JSON text
without lone surrogates that `parse` reports an error for. -/
theorem jsonText_parsed {scan : Bytes → Option Double} (hscan : ∀ t, IsNumber t → (scan t).isSome)
    {document : Bytes} {v : Tree} (h : JsonText document v) (hlen : document.length < 2 ^ 31)
    (depth : Nat) :
    (v.depth ≤ depth ∧ (∀ t ∈ v.numbers, t.length ≠ 32) ∧
        parse scan depth document = .ok (load scan v) []) ∨
      ((∃ t ∈ v.numbers, t.length = 32) ∧ parse scan depth document = .overrun) ∨
      (depth < v.depth ∧ parse scan depth document = .deep) := by
  rw [parse_jsonText hscan h hlen]
  cases hfate : fate depth v with
  | fine =>
    obtain ⟨hdepth, hnumbers⟩ := fate_eq_fine.mp hfate
    exact .inl ⟨hdepth, hnumbers, rfl⟩
  | overrun => exact .inr (.inl ⟨blame.1 hfate, rfl⟩)
  | deep => exact .inr (.inr ⟨blame.2 hfate, rfl⟩)

/-- A `sscanf` for integers below `2 ^ 53`. -/
def scanInteger (t : Bytes) : Option Double :=
  let n := decimal t
  let exponent := Nat.log2 n.natAbs
  let bits := if n = 0 then 0
    else (exponent + 1022) * 2 ^ 52 + n.natAbs * 2 ^ (52 - exponent)
  some ⟨UInt64.ofNat (if n < 0 then 2 ^ 63 + bits else bits), Int64.ofInt n⟩

/-- `[true, 7]`, in a reader with room for two calls. -/
theorem jsonText_parsed_pair : parse scanInteger 2 (ascii "[true, 7]") =
    .ok (.array [.boolean true, .int 7]) [] := by
  have hnumber : IsNumber (ascii "7") :=
    IsInteger.isNumber (.plain ⟨⟨by decide, List.forall_mem_singleton.mpr rfl⟩, by decide⟩)
  have hone : Elements (ascii " 7") [.number (ascii "7")] :=
    .one (w := [32]) (by simp [IsWs, isWs]) (.number hnumber) isWs_nil
  have htext : Denotes (ascii "[true, 7]") (.array [.boolean true, .number (ascii "7")]) :=
    .array (.cons isWs_nil .true isWs_nil hone)
  rcases @jsonText_parsed scanInteger (fun _ _ => rfl) _ _ htext.jsonText (by decide) 2 with
    ⟨-, -, h⟩ | ⟨⟨t, ht, hlen⟩, -⟩ | ⟨hlt, -⟩
  · exact h
  · cases List.mem_singleton.mp ht
    exact absurd hlen (by decide)
  · exact absurd hlt (by decide)

end Domq.Jsoncpp
