import Domq.Jsoncpp.Accept
import Domq.Netmgr.Encode

/-!
# What the writer writes

`Json::FastWriter` writes a JSON text, and `Json::Reader` reads it back.

* `tree v` is what the text of `v` denotes. The strings of a `Json::Value` have no NUL, which is the
  one character below 32 that the writer would not escape.
* Most doubles are written as numbers of JSON (`RealText`). But `1e15` is written as
  `1000000000000000.`, which is none, and neither are `inf` and `nan`.
* The members of an object are in the order of its map (`WellFormed`).
* A value comes back as it was if every integer keeps its type and every double is scanned as the
  one that was printed (`Intact`). With 16 digits this fails for some: `0.1 + 0.2` comes back as
  `0.3`.

Results: `write_denotes`; `load_tree_eq_iff`: the values that come back as they were; together,
`written_back`.
-/

namespace Domq.Jsoncpp

open Domq.Lib Domq.Mq Domq.Netmgr

/-! ## Values and trees -/

mutual

/-- What the text of a value denotes. -/
def tree : Value → Tree
  | .null => .null
  | .int n => .number (fmtInt n.toInt)
  | .uint n => .number (fmtNat n.toNat)
  | .real _ printed => .number (valueToString printed)
  | .boolean b => .boolean b
  | .string s => .string s.bytes
  | .array vs => .array (treeElements vs)
  | .object ms => .object (treeMembers ms)

def treeElements : List Value → List Tree
  | [] => []
  | v :: vs => tree v :: treeElements vs

def treeMembers : List (CStr × Value) → List (Bytes × Tree)
  | [] => []
  | (n, v) :: ms => (n.bytes, tree v) :: treeMembers ms

end

mutual

/-- The same value, as the decoders see it. -/
def toJson : Value → Json
  | .null => .null
  | .int n => .int n
  | .uint n => .uint n
  | .real value _ => .real value
  | .boolean b => .boolean b
  | .string s => .string s
  | .array vs => .array (toJsonElements vs)
  | .object ms => .object (toJsonMembers ms)

def toJsonElements : List Value → List Json
  | [] => []
  | v :: vs => toJson v :: toJsonElements vs

def toJsonMembers : List (CStr × Value) → List (CStr × Json)
  | [] => []
  | (n, v) :: ms => (n, toJson v) :: toJsonMembers ms

end

/-- A number of JSON with a fraction or an exponent, of fewer than 32 characters. -/
def RealText (t : Bytes) : Prop := IsNumber t ∧ plainInteger t = false ∧ t.length < 32

mutual

/-- Doubles are written as numbers of JSON, and members are in the order of the map. -/
def WellFormed : Value → Prop
  | .real _ printed => RealText (valueToString printed)
  | .array vs => WellFormedElements vs
  | .object ms => WellFormedMembers ms ∧ (ms.map fun m => m.1.bytes).Pairwise (· < ·)
  | _ => True

def WellFormedElements : List Value → Prop
  | [] => True
  | v :: vs => WellFormed v ∧ WellFormedElements vs

def WellFormedMembers : List (CStr × Value) → Prop
  | [] => True
  | (_, v) :: ms => WellFormed v ∧ WellFormedMembers ms

end

mutual

/-- Every integer comes back with its type, and every double is scanned as it was printed. -/
def Intact (scan : Bytes → Option Double) : Value → Prop
  | .int n => -9223372036854775799 ≤ n.toInt
  | .uint n => 2 ^ 63 ≤ n.toNat ∧ n.toNat ≤ 18446744073709551609
  | .real value printed => scan (valueToString printed) = some value
  | .array vs => IntactElements scan vs
  | .object ms => IntactMembers scan ms
  | _ => True

def IntactElements (scan : Bytes → Option Double) : List Value → Prop
  | [] => True
  | v :: vs => Intact scan v ∧ IntactElements scan vs

def IntactMembers (scan : Bytes → Option Double) : List (CStr × Value) → Prop
  | [] => True
  | (_, v) :: ms => Intact scan v ∧ IntactMembers scan ms

end

/-! ## Digits -/

theorem digitsFrom_lt {ds : Bytes} (h : ∀ b ∈ ds, isDigit b = true) (v : Nat) :
    digitsFrom v ds < (v + 1) * 10 ^ ds.length := by
  induction ds generalizing v with
  | nil => simp [digitsFrom]
  | cons b ds ih =>
    obtain ⟨hb, hds⟩ := List.forall_mem_cons.mp h
    have hlt := (isDigit_bounds hb).2
    calc digitsFrom v (b :: ds) = digitsFrom (10 * v + (b.toNat - 48)) ds := rfl
      _ < (10 * v + (b.toNat - 48) + 1) * 10 ^ ds.length := ih hds _
      _ ≤ (v + 1) * 10 * 10 ^ ds.length := Nat.mul_le_mul_right _ (by omega)
      _ = (v + 1) * 10 ^ (b :: ds).length := by rw [List.length_cons, Nat.pow_succ]; ring

theorem isDigits_fmtNat (n : Nat) : IsDigits (fmtNat n) :=
  ⟨fmtNat_ne_nil n, fun _ hb => isDigit_of_mem_fmtNat hb⟩

/-- The decimal text of a number has no leading zero. -/
theorem isInt_fmtNat (n : Nat) : IsInt (fmtNat n) := by
  refine ⟨isDigits_fmtNat n, fun hhead => ?_⟩
  obtain ⟨ds, hds⟩ := List.head?_eq_some_iff.mp hhead
  rw [hds]
  by_contra hne
  have hpos : 0 < ds.length := by
    cases ds with
    | nil => exact absurd rfl hne
    | cons b ds => simp
  have hdigits : ∀ b ∈ 48 :: ds, isDigit b = true := hds ▸ (isDigits_fmtNat n).2
  have hvalue : n = digitsFrom 0 ds := by
    rw [← digitsValue_fmtNat n, hds, digitsValue_eq hdigits]
    rfl
  have hlt : n < 10 ^ ds.length := by
    have := digitsFrom_lt (List.forall_mem_cons.mp hdigits).2 0
    rw [← hvalue] at this
    simpa using this
  have hlen : (fmtNat n).length ≤ ds.length := by
    rw [fmtNat, List.length_map]
    exact (Nat.length_toDigits_le_iff (by decide) hpos).mpr hlt
  rw [hds, List.length_cons] at hlen
  omega

theorem isInteger_fmtInt (n : Int) : IsInteger (fmtInt n) := by
  cases n with
  | ofNat n => exact .plain (isInt_fmtNat n)
  | negSucc n => exact .minus (isInt_fmtNat (n + 1))

theorem length_fmtNat_le {n k : Nat} (hk : 0 < k) (h : n < 10 ^ k) : (fmtNat n).length ≤ k := by
  rw [fmtNat, List.length_map]
  exact (Nat.length_toDigits_le_iff (by decide) hk).mpr h

/-! ## Strings -/

theorem hexVal_hexUpper : ∀ k < 16, hexVal (hexUpper k) = some k := by decide

/-- What the writer appends for a character is that character's text. -/
theorem charText_quotedByte {c : UInt8} (h : c ≠ 0) : CharText (quotedByte c) [c] := by
  have hescape : ∀ e b : UInt8, (e, b) ∈ escapes → CharText [92, e] [b] := fun _ _ h => .escape h
  unfold quotedByte
  split_ifs with h34 h92 h8 h12 h10 h13 h9 h47 hcontrol
  · subst h34; exact hescape 34 34 (by decide)
  · subst h92; exact hescape 92 92 (by decide)
  · subst h8; exact hescape 98 8 (by decide)
  · subst h12; exact hescape 102 12 (by decide)
  · subst h10; exact hescape 110 10 (by decide)
  · subst h13; exact hescape 114 13 (by decide)
  · subst h9; exact hescape 116 9 (by decide)
  · subst h47; exact hescape 47 47 (by decide)
  · have hlt : c.toNat ≤ 31 := UInt8.le_iff_toNat_le.mp hcontrol.2
    have hh : Hex4 [48, 48, hexUpper (c.toNat / 16), hexUpper (c.toNat % 16)] c.toNat := by
      have := Hex4.mk (x := 0) (y := 0) (a := 48) (b := 48) rfl rfl
        (hexVal_hexUpper (c.toNat / 16) (by omega)) (hexVal_hexUpper (c.toNat % 16) (by omega))
      rwa [show ((0 * 16 + 0) * 16 + c.toNat / 16) * 16 + c.toNat % 16 = c.toNat by omega] at this
    have hutf8 : utf8 c.toNat = [c] := by
      rw [← codePointToUTF8_eq (.inl (by omega)), codePointToUTF8, if_pos (by omega),
        UInt8.ofNat_toNat]
    have := CharText.unicode hh (.inl (by omega))
    rwa [hutf8] at this
  · refine .unescaped ?_ h34 h92
    have hpos : 0 < c := UInt8.pos_iff_ne_zero.mpr h
    rw [UInt8.le_iff_toNat_le]
    by_contra hlt
    refine hcontrol ⟨hpos, UInt8.le_iff_toNat_le.mpr ?_⟩
    show c.toNat ≤ 31
    have : (32 : UInt8).toNat = 32 := rfl
    omega

theorem stringText_quoted (s : CStr) : StringText (s.bytes.flatMap quotedByte) s.bytes := by
  have h := s.noNul
  generalize s.bytes = l at h
  induction l with
  | nil => exact .nil
  | cons c l ih =>
    obtain ⟨hc, hl⟩ := List.forall_mem_cons.mp h
    exact .cons (charText_quotedByte hc) (ih hl)

theorem valueToQuotedString_eq (s : CStr) :
    valueToQuotedString s = quoted (s.bytes.flatMap quotedByte) := rfl

/-! ## Values -/

mutual

/-- **The writer writes a text of the value.** -/
theorem write_denotes : ∀ v : Value, WellFormed v → Denotes v.write (tree v)
  | .null, _ => .null
  | .int n, _ => .number (isInteger_fmtInt n.toInt).isNumber
  | .uint n, _ => .number (IsInteger.plain (isInt_fmtNat n.toNat)).isNumber
  | .real _ _, h => .number h.1
  | .boolean true, _ => .true
  | .boolean false, _ => .false
  | .string s, _ => .string (stringText_quoted s)
  | .array [], _ => .emptyArray isWs_nil
  | .array (v :: vs), h => .array (writeElements_denotes (v :: vs) h (by simp))
  | .object [], _ => .emptyObject isWs_nil
  | .object (m :: ms), h => .object (writeMembers_denotes (m :: ms) h.1 (by simp))

theorem writeElements_denotes : ∀ vs : List Value, WellFormedElements vs → vs ≠ [] →
    Elements (writeElements vs) (treeElements vs)
  | [v], h, _ => by
    have hone := Elements.one isWs_nil (write_denotes v h.1) isWs_nil
    rwa [List.append_nil, List.nil_append] at hone
  | v :: u :: vs, h, _ => by
    have hcons := Elements.cons isWs_nil (write_denotes v h.1) isWs_nil
      (writeElements_denotes (u :: vs) h.2 (by simp))
    have heq : writeElements (v :: u :: vs) = v.write ++ 44 :: writeElements (u :: vs) :=
      List.append_assoc _ [44] _
    rw [heq]
    exact hcons

theorem writeMembers_denotes : ∀ ms : List (CStr × Value), WellFormedMembers ms → ms ≠ [] →
    Members (writeMembers ms) (treeMembers ms)
  | [(n, v)], h, _ => by
    have hone := Members.one isWs_nil (stringText_quoted n) isWs_nil isWs_nil
      (write_denotes v h.1) isWs_nil
    have heq : writeMembers [(n, v)] = quoted (n.bytes.flatMap quotedByte) ++ 58 :: v.write :=
      List.append_assoc _ [58] _
    rw [heq]
    rwa [List.append_nil] at hone
  | (n, v) :: m :: ms, h, _ => by
    have hcons := Members.cons isWs_nil (stringText_quoted n) isWs_nil isWs_nil
      (write_denotes v h.1) isWs_nil (writeMembers_denotes (m :: ms) h.2 (by simp))
    have heq : writeMembers ((n, v) :: m :: ms) =
        quoted (n.bytes.flatMap quotedByte) ++ 58 :: (v.write ++ 44 :: writeMembers (m :: ms)) := by
      show valueToQuotedString n ++ [58] ++ v.write ++ [44] ++ writeMembers (m :: ms) = _
      simp only [valueToQuotedString_eq, List.append_assoc, List.cons_append,
        List.nil_append]
    rw [heq]
    exact hcons

end

/-! ## Integers -/

theorem length_fmtInt_ne (n : Int64) : (fmtInt n.toInt).length ≠ 32 := by
  have hlo := n.le_toInt
  have hhi := n.toInt_lt
  have hle : ∀ k : Nat, k < 10 ^ 20 → (fmtNat k).length ≤ 20 := fun k =>
    length_fmtNat_le (by decide)
  cases hn : n.toInt with
  | ofNat k =>
    have hk : n.toInt = k := hn
    have := hle k (by omega)
    show (fmtNat k).length ≠ 32
    omega
  | negSucc k =>
    have := hle (k + 1) (by omega)
    show (45 :: fmtNat (k + 1)).length ≠ 32
    rw [List.length_cons]
    omega

theorem length_fmtNat_ne (n : UInt64) : (fmtNat n.toNat).length ≠ 32 := by
  have hlt := n.toNat_lt
  have := length_fmtNat_le (n := n.toNat) (k := 20) (by decide) (by omega)
  omega

theorem loadNumber_integer (scan : Bytes → Option Double) (n : Int) :
    loadNumber scan (fmtInt n) =
      if Kept n then integerValue n else .real ((scan (fmtInt n)).getD default) := by
  unfold loadNumber
  simp only [(isDouble_integer (isInteger_fmtInt n)).2, decimal_fmtInt, true_and]

theorem load_int (scan : Bytes → Option Double) (n : Int64) :
    loadNumber scan (fmtInt n.toInt) = .int n ↔ -9223372036854775799 ≤ n.toInt := by
  have hhi := n.toInt_lt
  rw [loadNumber_integer]
  by_cases h : -9223372036854775799 ≤ n.toInt
  · rw [if_pos ⟨h, by omega⟩, integerValue, if_pos (by omega), Int64.ofInt_toInt]
    exact iff_of_true rfl h
  · rw [if_neg fun hk : Kept _ => h hk.1]
    exact iff_of_false (fun heq => by cases heq) h

theorem load_uint (scan : Bytes → Option Double) (n : UInt64) :
    loadNumber scan (fmtNat n.toNat) = .uint n ↔
      2 ^ 63 ≤ n.toNat ∧ n.toNat ≤ 18446744073709551609 := by
  show loadNumber scan (fmtInt (n.toNat : Int)) = _ ↔ _
  rw [loadNumber_integer]
  by_cases hk : n.toNat ≤ 18446744073709551609
  · rw [if_pos (show Kept _ from ⟨by omega, by omega⟩), integerValue]
    by_cases hint : n.toNat ≤ 2 ^ 63 - 1
    · rw [if_pos (by omega)]
      exact iff_of_false (fun heq => by cases heq) (by omega)
    · rw [if_neg (by omega), Int.toNat_natCast, UInt64.ofNat_toNat]
      exact iff_of_true rfl ⟨by omega, hk⟩
  · rw [if_neg fun h : Kept _ => hk (by have := h.2; omega)]
    exact iff_of_false (fun heq => by cases heq) fun h => hk h.2

/-! ## Members -/

/-- A name behind all others is put at the end. -/
theorem insertMember_append {name : CStr} {members : List (CStr × Json)}
    (h : ∀ m ∈ members, m.1.bytes < name.bytes) (x : Json) :
    insertMember name x members = members ++ [(name, x)] := by
  induction members with
  | nil => rfl
  | cons m members ih =>
    obtain ⟨n, v⟩ := m
    obtain ⟨hm, hmembers⟩ := List.forall_mem_cons.mp h
    have hne : name ≠ n := by
      rintro rfl
      exact List.lt_irrefl _ hm
    rw [insertMember, if_neg hne, if_neg (List.lt_asymm hm), ih hmembers, List.cons_append]

/-- Members in the order of the map stay as they are. -/
theorem loadMembers_treeMembers (scan : Bytes → Option Double) (ms : List (CStr × Value))
    (members : List (CStr × Json)) (h : (ms.map fun m => m.1.bytes).Pairwise (· < ·))
    (hm : ∀ m ∈ members, ∀ m' ∈ ms, m.1.bytes < m'.1.bytes) :
    loadMembers scan members (treeMembers ms) =
      members ++ ms.map fun m => (m.1, load scan (tree m.2)) := by
  induction ms generalizing members with
  | nil => simp [treeMembers, loadMembers]
  | cons m ms ih =>
    obtain ⟨n, v⟩ := m
    rw [List.map_cons, List.pairwise_cons] at h
    rw [treeMembers, loadMembers, CStr.ofBytes_bytes,
      insertMember_append fun m hmem => hm m hmem (n, v) List.mem_cons_self, ih _ h.2 ?_,
      List.append_assoc]
    · rfl
    · intro m hmem m' hmem'
      rcases List.mem_append.mp hmem with hmem | hmem
      · exact hm m hmem m' (List.mem_cons_of_mem _ hmem')
      · rw [List.mem_singleton.mp hmem]
        exact h.1 _ (List.mem_map_of_mem hmem')

theorem toJsonMembers_eq (ms : List (CStr × Value)) :
    toJsonMembers ms = ms.map fun m => (m.1, toJson m.2) := by
  induction ms with
  | nil => rfl
  | cons m ms ih =>
    obtain ⟨n, v⟩ := m
    rw [toJsonMembers, ih, List.map_cons]

/-! ## Back again -/

mutual

theorem load_tree_eq_iff {scan : Bytes → Option Double}
    (hscan : ∀ t, IsNumber t → (scan t).isSome) : ∀ v : Value, WellFormed v →
      (load scan (tree v) = toJson v ↔ Intact scan v)
  | .null, _ => by simp [tree, load, toJson, Intact]
  | .int n, _ => by
    rw [tree, load, toJson, Intact]
    exact load_int scan n
  | .uint n, _ => by
    rw [tree, load, toJson, Intact]
    exact load_uint scan n
  | .real value printed, h => by
    obtain ⟨x, hx⟩ := Option.isSome_iff_exists.mp (hscan _ h.1)
    have hplain : plainInteger (valueToString printed) = false := h.2.1
    simp [tree, load, loadNumber, hplain, toJson, Intact, hx]
  | .boolean b, _ => by simp [tree, load, toJson, Intact]
  | .string s, _ => by simp [tree, load, toJson, Intact]
  | .array vs, h => by
    rw [tree, load, toJson, Intact, Json.array.injEq]
    exact loadElements_eq_iff hscan vs h
  | .object ms, h => by
    rw [tree, load, toJson, Intact, Json.object.injEq,
      loadMembers_treeMembers scan ms [] h.2 (by simp), toJsonMembers_eq, List.nil_append]
    exact loadMembers_eq_iff hscan ms h.1

theorem loadElements_eq_iff {scan : Bytes → Option Double}
    (hscan : ∀ t, IsNumber t → (scan t).isSome) : ∀ vs : List Value, WellFormedElements vs →
      (loadElements scan (treeElements vs) = toJsonElements vs ↔ IntactElements scan vs)
  | [], _ => by simp [treeElements, loadElements, toJsonElements, IntactElements]
  | v :: vs, h => by
    rw [treeElements, loadElements, toJsonElements, IntactElements, List.cons.injEq,
      load_tree_eq_iff hscan v h.1, loadElements_eq_iff hscan vs h.2]

theorem loadMembers_eq_iff {scan : Bytes → Option Double}
    (hscan : ∀ t, IsNumber t → (scan t).isSome) : ∀ ms : List (CStr × Value), WellFormedMembers ms →
      ((ms.map fun m => (m.1, load scan (tree m.2))) = (ms.map fun m => (m.1, toJson m.2)) ↔
        IntactMembers scan ms)
  | [], _ => by simp [IntactMembers]
  | (n, v) :: ms, h => by
    rw [List.map_cons, List.map_cons, IntactMembers, List.cons.injEq, Prod.mk.injEq,
      load_tree_eq_iff hscan v h.1, loadMembers_eq_iff hscan ms h.2]
    simp

end

mutual

/-- No number that is written has 32 characters. -/
theorem numbers_tree : ∀ v : Value, WellFormed v → ∀ t ∈ (tree v).numbers, t.length ≠ 32
  | .null, _ => by simp [tree, Tree.numbers]
  | .int n, _ => by simpa [tree, Tree.numbers] using length_fmtInt_ne n
  | .uint n, _ => by simpa [tree, Tree.numbers] using length_fmtNat_ne n
  | .real _ printed, h => by
    have hlt := h.2.2
    simp only [tree, Tree.numbers, List.mem_singleton, forall_eq]
    omega
  | .boolean b, _ => by simp [tree, Tree.numbers]
  | .string s, _ => by simp [tree, Tree.numbers]
  | .array vs, h => by
    rw [tree, Tree.numbers]
    exact numbers_treeElements vs h
  | .object ms, h => by
    rw [tree, Tree.numbers]
    exact numbers_treeMembers ms h.1

theorem numbers_treeElements : ∀ vs : List Value, WellFormedElements vs →
    ∀ t ∈ Tree.numbersElements (treeElements vs), t.length ≠ 32
  | [], _ => by simp [treeElements, Tree.numbersElements]
  | v :: vs, h => by
    rw [treeElements, Tree.numbersElements]
    exact List.forall_mem_append.mpr ⟨numbers_tree v h.1, numbers_treeElements vs h.2⟩

theorem numbers_treeMembers : ∀ ms : List (CStr × Value), WellFormedMembers ms →
    ∀ t ∈ Tree.numbersMembers (treeMembers ms), t.length ≠ 32
  | [], _ => by simp [treeMembers, Tree.numbersMembers]
  | (n, v) :: ms, h => by
    rw [treeMembers, Tree.numbersMembers]
    exact List.forall_mem_append.mpr ⟨numbers_tree v h.1, numbers_treeMembers ms h.2⟩

end

/-- What the writer wrote is read, where the stack has room for it. -/
theorem parse_written {scan : Bytes → Option Double} (hscan : ∀ t, IsNumber t → (scan t).isSome)
    {v : Value} (hv : WellFormed v) (hlen : v.write.length < 2 ^ 31) {depth : Nat}
    (hdepth : (tree v).depth ≤ depth) :
    parse scan depth v.write = .ok (load scan (tree v)) [] := by
  rw [parse_jsonText hscan (write_denotes v hv).jsonText hlen,
    fate_eq_fine.mpr ⟨hdepth, numbers_tree v hv⟩]
  rfl

/-- **What is written is read back.** The writer writes a JSON text, the reader reads it, and the
value is the one that was written if and only if every integer in it is one that the reader gives
back with its type, and every double is scanned as the one that was printed. -/
theorem written_back {scan : Bytes → Option Double} (hscan : ∀ t, IsNumber t → (scan t).isSome)
    {v : Value} (hv : WellFormed v) (hlen : v.write.length < 2 ^ 31) {depth : Nat}
    (hdepth : (tree v).depth ≤ depth) :
    JsonText v.write (tree v) ∧ ∃ root, parse scan depth v.write = .ok root [] ∧
      (root = toJson v ↔ Intact scan v) :=
  ⟨(write_denotes v hv).jsonText, load scan (tree v), parse_written hscan hv hlen hdepth,
    load_tree_eq_iff hscan v hv⟩

section

def backName : CStr := ⟨ascii "n", by decide⟩
def backString : CStr := ⟨ascii "a\"/\\b", by decide⟩

/-- `1.5`. -/
def oneAndAHalf : Double := ⟨0x3ff8000000000000, 1⟩

/-- A `sscanf` for integers, and for one number more. -/
def scanHalf (t : Bytes) : Option Double :=
  if t = ascii "1.50" then some oneAndAHalf else scanInteger t

/-- An object with one array. -/
def backValue : Value :=
  .object [(backName, .array [.int (-5), .uint 9223372036854775808,
    .real oneAndAHalf (ascii "1.500000000000000"), .string backString, .null])]

theorem written_back_object :
    ∃ root, parse scanHalf 3 backValue.write = .ok root [] ∧ root = toJson backValue := by
  have hreal : RealText (ascii "1.50") := by
    have hone : IsDigits (ascii "1") := ⟨by decide, List.forall_mem_singleton.mpr rfl⟩
    have hfraction : IsDigits (ascii "50") :=
      ⟨by decide, List.forall_mem_cons.mpr ⟨rfl, List.forall_mem_singleton.mpr rfl⟩⟩
    exact ⟨.mk (.plain ⟨hone, by decide⟩) (.some hfraction) .none, by decide, by decide⟩
  have hv : WellFormed backValue :=
    ⟨⟨⟨trivial, trivial, hreal, trivial, trivial, trivial⟩, trivial⟩, List.pairwise_singleton _ _⟩
  have hscan : ∀ t, IsNumber t → (scanHalf t).isSome := by
    intro t _
    unfold scanHalf
    split
    · rfl
    · rfl
  obtain ⟨-, root, hparse, hback⟩ := @written_back scanHalf hscan _ hv
    (by decide +kernel) 3 (by decide)
  have hint : Intact scanHalf (.int (-5)) := show -9223372036854775799 ≤ Int64.toInt (-5) by decide
  have huint : Intact scanHalf (.uint 9223372036854775808) :=
    show 2 ^ 63 ≤ UInt64.toNat 9223372036854775808 ∧
      UInt64.toNat 9223372036854775808 ≤ 18446744073709551609 by decide
  exact ⟨root, hparse, hback.mpr ⟨⟨hint, huint, rfl, trivial, trivial, trivial⟩, trivial⟩⟩

end

end Domq.Jsoncpp
