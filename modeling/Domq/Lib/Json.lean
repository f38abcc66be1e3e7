import Domq.Lib.Text
import Mathlib.Data.List.Flatten
import Mathlib.Data.List.Infix

/-!
# The grammar of JSON

The grammar of RFC 8259 over byte strings, with the value each text denotes. `Denotes t v` says that
the byte string `t` is a text of `v`, without white space around it.

* A number keeps its text: what it is converted to is up to the reader.
* A string is the bytes it stands for. The bytes from 128 on stand for themselves, whether they are
  UTF-8 or not. An escaped code point is written in UTF-8.
* RFC 8259 lets an escape be half of a surrogate pair alone, which stands for no code point. Such
  texts denote nothing here: the grammar is that of RFC 8259 without lone surrogates.
* An object is the list of its members in the order of the text, names that are repeated included.
-/

namespace Domq.Lib

/-- What a JSON text denotes. -/
inductive Tree
  | null
  | boolean (b : Bool)
  | number (text : Bytes)
  | string (s : Bytes)
  | array (elements : List Tree)
  | object (members : List (Bytes × Tree))

namespace Tree

mutual

/-- Induction over a tree, with lists of subtrees. -/
theorem induct {P : Tree → Prop} (null : P .null) (boolean : ∀ b, P (.boolean b))
    (number : ∀ t, P (.number t)) (string : ∀ s, P (.string s))
    (array : ∀ vs : List Tree, (∀ v ∈ vs, P v) → P (.array vs))
    (object : ∀ ms : List (Bytes × Tree), (∀ m ∈ ms, P m.2) → P (.object ms)) : ∀ v, P v
  | .null => null
  | .boolean b => boolean b
  | .number t => number t
  | .string s => string s
  | .array vs => array vs (inductElements null boolean number string array object vs)
  | .object ms => object ms (inductMembers null boolean number string array object ms)

theorem inductElements {P : Tree → Prop} (null : P .null) (boolean : ∀ b, P (.boolean b))
    (number : ∀ t, P (.number t)) (string : ∀ s, P (.string s))
    (array : ∀ vs : List Tree, (∀ v ∈ vs, P v) → P (.array vs))
    (object : ∀ ms : List (Bytes × Tree), (∀ m ∈ ms, P m.2) → P (.object ms)) :
    ∀ vs : List Tree, ∀ v ∈ vs, P v
  | [] => fun _ h => absurd h List.not_mem_nil
  | v :: vs => List.forall_mem_cons.mpr
    ⟨induct null boolean number string array object v,
      inductElements null boolean number string array object vs⟩

theorem inductMembers {P : Tree → Prop} (null : P .null) (boolean : ∀ b, P (.boolean b))
    (number : ∀ t, P (.number t)) (string : ∀ s, P (.string s))
    (array : ∀ vs : List Tree, (∀ v ∈ vs, P v) → P (.array vs))
    (object : ∀ ms : List (Bytes × Tree), (∀ m ∈ ms, P m.2) → P (.object ms)) :
    ∀ ms : List (Bytes × Tree), ∀ m ∈ ms, P m.2
  | [] => fun _ h => absurd h List.not_mem_nil
  | (_, v) :: ms => List.forall_mem_cons.mpr
    ⟨induct null boolean number string array object v,
      inductMembers null boolean number string array object ms⟩

end

mutual

/-- How deep values are nested; a value without values in it has depth 1. -/
def depth : Tree → Nat
  | .array vs => depthElements vs + 1
  | .object ms => depthMembers ms + 1
  | _ => 1

def depthElements : List Tree → Nat
  | [] => 0
  | v :: vs => max v.depth (depthElements vs)

def depthMembers : List (Bytes × Tree) → Nat
  | [] => 0
  | (_, v) :: ms => max v.depth (depthMembers ms)

end

mutual

/-- The texts of the numbers. -/
def numbers : Tree → List Bytes
  | .number t => [t]
  | .array vs => numbersElements vs
  | .object ms => numbersMembers ms
  | _ => []

def numbersElements : List Tree → List Bytes
  | [] => []
  | v :: vs => v.numbers ++ numbersElements vs

def numbersMembers : List (Bytes × Tree) → List Bytes
  | [] => []
  | (_, v) :: ms => v.numbers ++ numbersMembers ms

end

theorem depthElements_le {vs : List Tree} {d : Nat} :
    depthElements vs ≤ d ↔ ∀ v ∈ vs, v.depth ≤ d := by
  induction vs with
  | nil => simp [depthElements]
  | cons v vs ih => simp [depthElements, ih]

theorem depthMembers_le {ms : List (Bytes × Tree)} {d : Nat} :
    depthMembers ms ≤ d ↔ ∀ m ∈ ms, m.2.depth ≤ d := by
  induction ms with
  | nil => simp [depthMembers]
  | cons m ms ih =>
    obtain ⟨n, v⟩ := m
    simp only [depthMembers, Nat.max_le, ih, List.forall_mem_cons]

theorem forall_numbersElements {vs : List Tree} {P : Bytes → Prop} :
    (∀ t ∈ numbersElements vs, P t) ↔ ∀ v ∈ vs, ∀ t ∈ v.numbers, P t := by
  induction vs with
  | nil => simp [numbersElements]
  | cons v vs ih => simp only [numbersElements, List.forall_mem_append, ih, List.forall_mem_cons]

theorem forall_numbersMembers {ms : List (Bytes × Tree)} {P : Bytes → Prop} :
    (∀ t ∈ numbersMembers ms, P t) ↔ ∀ m ∈ ms, ∀ t ∈ m.2.numbers, P t := by
  induction ms with
  | nil => simp [numbersMembers]
  | cons m ms ih =>
    obtain ⟨n, v⟩ := m
    simp only [numbersMembers, List.forall_mem_append, ih, List.forall_mem_cons]

end Tree

/-! ## White space and numbers -/

def isWs (b : UInt8) : Bool := b == 32 || b == 9 || b == 10 || b == 13

/-- `ws`. -/
def IsWs (s : Bytes) : Prop := ∀ b ∈ s, isWs b = true

/-- `1*DIGIT`. -/
def IsDigits (s : Bytes) : Prop := s ≠ [] ∧ ∀ b ∈ s, isDigit b = true

/-- `int`: digits, and if the first is a zero it is the only one. -/
def IsInt (s : Bytes) : Prop := IsDigits s ∧ (s.head? = some 48 → s = [48])

/-- `[ frac ]`. -/
inductive IsFrac : Bytes → Prop
  | none : IsFrac []
  | some {ds : Bytes} (h : IsDigits ds) : IsFrac (46 :: ds)

/-- `[ exp ]`. -/
inductive IsExp : Bytes → Prop
  | none : IsExp []
  | some {e : UInt8} {sign ds : Bytes} (he : e = 101 ∨ e = 69)
      (hs : sign = [] ∨ sign = [43] ∨ sign = [45]) (h : IsDigits ds) : IsExp (e :: (sign ++ ds))

/-- `[ minus ] int`. -/
inductive IsInteger : Bytes → Prop
  | plain {ds : Bytes} (h : IsInt ds) : IsInteger ds
  | minus {ds : Bytes} (h : IsInt ds) : IsInteger (45 :: ds)

/-- `number`. -/
inductive IsNumber : Bytes → Prop
  | mk {int frac exp : Bytes} (hi : IsInteger int) (hf : IsFrac frac) (he : IsExp exp) :
      IsNumber (int ++ frac ++ exp)

/-! ## Strings -/

/-- The characters with an escape of two characters: what follows the backslash, and the byte it
stands for. -/
def escapes : List (UInt8 × UInt8) :=
  [(34, 34), (92, 92), (47, 47), (98, 8), (102, 12), (110, 10), (114, 13), (116, 9)]

/-- The value of a hexadecimal digit. -/
def hexVal (b : UInt8) : Option Nat :=
  if 48 ≤ b ∧ b ≤ 57 then some (b.toNat - 48)
  else if 97 ≤ b ∧ b ≤ 102 then some (b.toNat - 87)
  else if 65 ≤ b ∧ b ≤ 70 then some (b.toNat - 55)
  else none

/-- `4HEXDIG`, with its value. -/
inductive Hex4 : Bytes → Nat → Prop
  | mk {a b c d : UInt8} {x y z w : Nat} (ha : hexVal a = some x) (hb : hexVal b = some y)
      (hc : hexVal c = some z) (hd : hexVal d = some w) :
      Hex4 [a, b, c, d] (((x * 16 + y) * 16 + z) * 16 + w)

/-- A code point in UTF-8. -/
def utf8 (n : Nat) : Bytes := String.utf8EncodeChar (Char.ofNat n)

/-- `char`, with the bytes it stands for; an escaped surrogate is always half of a pair. -/
inductive CharText : Bytes → Bytes → Prop
  | unescaped {b : UInt8} (h : 32 ≤ b) (hquote : b ≠ 34) (hbackslash : b ≠ 92) : CharText [b] [b]
  | escape {c b : UInt8} (h : (c, b) ∈ escapes) : CharText [92, c] [b]
  | unicode {h : Bytes} {n : Nat} (hh : Hex4 h n) (hn : n < 0xD800 ∨ 0xDFFF < n) :
      CharText (92 :: 117 :: h) (utf8 n)
  | surrogates {h l : Bytes} {n m : Nat} (hh : Hex4 h n) (hl : Hex4 l m) (hn : 0xD800 ≤ n)
      (hn' : n ≤ 0xDBFF) (hm : 0xDC00 ≤ m) (hm' : m ≤ 0xDFFF) :
      CharText (92 :: 117 :: (h ++ 92 :: 117 :: l))
        (utf8 (0x10000 + (n - 0xD800) * 0x400 + (m - 0xDC00)))

/-- `*char`. -/
inductive StringText : Bytes → Bytes → Prop
  | nil : StringText [] []
  | cons {t s ts ss : Bytes} (h : CharText t s) (hs : StringText ts ss) :
      StringText (t ++ ts) (s ++ ss)

/-- `string`: characters between quotation marks. -/
def quoted (t : Bytes) : Bytes := 34 :: (t ++ [34])

/-! ## Values -/

mutual

/-- `value`. -/
inductive Denotes : Bytes → Tree → Prop
  | null : Denotes (ascii "null") .null
  | true : Denotes (ascii "true") (.boolean true)
  | false : Denotes (ascii "false") (.boolean false)
  | number {t : Bytes} (h : IsNumber t) : Denotes t (.number t)
  | string {t s : Bytes} (h : StringText t s) : Denotes (quoted t) (.string s)
  | emptyArray {w : Bytes} (hw : IsWs w) : Denotes (91 :: (w ++ [93])) (.array [])
  | array {t : Bytes} {vs : List Tree} (h : Elements t vs) : Denotes (91 :: (t ++ [93])) (.array vs)
  | emptyObject {w : Bytes} (hw : IsWs w) : Denotes (123 :: (w ++ [125])) (.object [])
  | object {t : Bytes} {ms : List (Bytes × Tree)} (h : Members t ms) :
      Denotes (123 :: (t ++ [125])) (.object ms)

/-- `value *( value-separator value )`. -/
inductive Elements : Bytes → List Tree → Prop
  | one {w t w' : Bytes} {v : Tree} (hw : IsWs w) (h : Denotes t v) (hw' : IsWs w') :
      Elements (w ++ (t ++ w')) [v]
  | cons {w t w' ts : Bytes} {v : Tree} {vs : List Tree} (hw : IsWs w) (h : Denotes t v)
      (hw' : IsWs w') (hs : Elements ts vs) : Elements (w ++ (t ++ (w' ++ 44 :: ts))) (v :: vs)

/-- `member *( value-separator member )`. -/
inductive Members : Bytes → List (Bytes × Tree) → Prop
  | one {w n name w₁ w₂ t w' : Bytes} {v : Tree} (hw : IsWs w) (hn : StringText n name)
      (hw₁ : IsWs w₁) (hw₂ : IsWs w₂) (h : Denotes t v) (hw' : IsWs w') :
      Members (w ++ (quoted n ++ (w₁ ++ 58 :: (w₂ ++ (t ++ w'))))) [(name, v)]
  | cons {w n name w₁ w₂ t w' ts : Bytes} {v : Tree} {ms : List (Bytes × Tree)} (hw : IsWs w)
      (hn : StringText n name) (hw₁ : IsWs w₁) (hw₂ : IsWs w₂) (h : Denotes t v) (hw' : IsWs w')
      (hs : Members ts ms) :
      Members (w ++ (quoted n ++ (w₁ ++ 58 :: (w₂ ++ (t ++ (w' ++ 44 :: ts)))))) ((name, v) :: ms)

end

/-- An integer is a number. -/
theorem IsInteger.isNumber {t : Bytes} (h : IsInteger t) : IsNumber t := by
  have hmk := IsNumber.mk h .none .none
  rwa [List.append_nil, List.append_nil] at hmk

/-! ## White space -/

theorem isWs_nil : IsWs [] := fun _ h => absurd h List.not_mem_nil

theorem IsWs.append {s t : Bytes} (hs : IsWs s) (ht : IsWs t) : IsWs (s ++ t) := fun b hb =>
  (List.mem_append.mp hb).elim (hs b) (ht b)

/-! ## Text with white space around it -/

/-- `JSON-text`: a value with white space around it. -/
def JsonText (doc : Bytes) (v : Tree) : Prop :=
  ∃ w t w', IsWs w ∧ Denotes t v ∧ IsWs w' ∧ doc = w ++ (t ++ w')

theorem Denotes.jsonText {t : Bytes} {v : Tree} (h : Denotes t v) : JsonText t v :=
  ⟨[], t, [], isWs_nil, h, isWs_nil, by simp⟩

end Domq.Lib
