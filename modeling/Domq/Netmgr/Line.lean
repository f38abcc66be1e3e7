import Domq.Netmgr.Frame

/-!
# Lines

On a port with `LineCoder` a message is a line: the bytes up to and including a newline.
`LineCoder::Extract` (`coder.cpp`) scans the received bytes and has each line decoded;
`NetMgrEventHandler::HandleInput` is the one of `Domq.Netmgr.Frame`, with this coder.

`ans i` is whether the `i`-th `Decode` on the connection gets a message from the factory. `Extract`
does not report a line without a message as an error: it returns what it has used so far.

* `Lines l ls r`: the lines of `l` are `ls`, and `r` is behind the last newline. There is one such
  `ls` and `r` for every `l` (`Lines.unique`).
* `line_extraction`: a stream, however it is cut into pieces, is decoded line by line.
-/

namespace Domq.Netmgr

open Domq.Lib Domq.Base

/-! ## `LineCoder::Extract` -/

/-- `'\n'`. -/
def newline : UInt8 := 10

/-- The loop of `LineCoder::Extract` over the bytes from `i` on, `n` counting the calls of
`Decode`. -/
def extractLineLoop (ans : Nat → Bool) : Bytes → (i used n : Nat) → Extracted
  | [], _, used, _ => ⟨(Int32.ofNat used).toInt, [], []⟩
  | b :: rest, i, used, n =>
    if b = newline then
      let slice := (used, i - used + 1)
      if ans n then
        let r := extractLineLoop ans rest (i + 1) (i + 1) (n + 1)
        ⟨r.ret, slice :: r.decoded, slice :: r.delivered⟩
      else ⟨(Int32.ofNat (i + 1)).toInt, [slice], []⟩
    else extractLineLoop ans rest (i + 1) used n

/-- `LineCoder::Extract`. -/
def extractLine (buf : Bytes) (ans : Nat → Bool) : Extracted := extractLineLoop ans buf 0 0 0

/-- `HandleInput` on a connection with `LineCoder`. -/
def handleInputLine (ans : Nat → Bool) (chunk : Bytes) (h : Handler) : Option Handler :=
  handleInputWith (fun buf => some (extractLine buf fun i => ans (h.decoded.length + i))) chunk h

/-- The pieces of a stream, one after the other; a closed connection reads nothing. -/
def handleInputLines (ans : Nat → Bool) : List Bytes → Handler → Option Handler
  | [], h => some h
  | chunk :: chunks, h =>
    if h.closed then some h else (handleInputLine ans chunk h).bind (handleInputLines ans chunks)

/-! ## The lines of a stream -/

/-- The bytes `l` are the lines `ls`, each with its newline, and `r` without one. -/
structure Lines (l : Bytes) (ls : List Bytes) (r : Bytes) : Prop where
  parts : ls.flatten ++ r = l
  line : ∀ p ∈ ls, ∃ a, p = a ++ [newline] ∧ newline ∉ a
  rest : newline ∉ r

theorem lines_nil : Lines [] [] [] := ⟨rfl, by simp, by simp⟩

/-- What is left, with more bytes behind, gives the remaining lines. -/
theorem Lines.append {l m r r' : Bytes} {ls ls' : List Bytes} (h : Lines l ls r)
    (h' : Lines (r ++ m) ls' r') : Lines (l ++ m) (ls ++ ls') r' where
  parts := by
    rw [List.flatten_append, List.append_assoc, h'.parts, ← List.append_assoc, h.parts]
  line p hp := by
    rcases List.mem_append.mp hp with hp | hp
    · exact h.line p hp
    · exact h'.line p hp
  rest := h'.rest

/-- A first newline is in one place only. -/
theorem newline_split {a a' m m' : Bytes} (ha : newline ∉ a) (ha' : newline ∉ a')
    (h : a ++ newline :: m = a' ++ newline :: m') : a = a' ∧ m = m' := by
  induction a generalizing a' with
  | nil =>
    cases a' with
    | nil => exact ⟨rfl, (List.cons.inj h).2⟩
    | cons b a' =>
      have hb := (List.cons.inj h).1
      exact absurd (hb ▸ List.mem_cons_self) ha'
  | cons b a ih =>
    cases a' with
    | nil =>
      have hb := (List.cons.inj h).1
      exact absurd (hb ▸ List.mem_cons_self) ha
    | cons b' a' =>
      obtain ⟨hb, htail⟩ := List.cons.inj h
      obtain ⟨rfl, rfl⟩ := ih (fun hm => ha (List.mem_cons_of_mem _ hm))
        (fun hm => ha' (List.mem_cons_of_mem _ hm)) htail
      exact ⟨by rw [hb], rfl⟩

/-- The lines and the rest are determined. -/
theorem Lines.unique {l r r' : Bytes} {ls ls' : List Bytes} (h : Lines l ls r)
    (h' : Lines l ls' r') : ls = ls' ∧ r = r' := by
  have hmem : ∀ {a m : Bytes}, newline ∈ a ++ [newline] ++ m := by simp
  induction ls generalizing l ls' with
  | nil =>
    cases ls' with
    | nil => exact ⟨rfl, h.parts.trans h'.parts.symm⟩
    | cons p ls' =>
      obtain ⟨a, rfl, -⟩ := h'.line p List.mem_cons_self
      have heq := h.parts.trans h'.parts.symm
      rw [List.flatten_nil, List.nil_append, List.flatten_cons, List.append_assoc] at heq
      exact absurd (heq ▸ hmem) h.rest
  | cons p ls ih =>
    obtain ⟨a, rfl, ha⟩ := h.line p List.mem_cons_self
    cases ls' with
    | nil =>
      have heq := h'.parts.trans h.parts.symm
      rw [List.flatten_nil, List.nil_append, List.flatten_cons, List.append_assoc] at heq
      exact absurd (heq ▸ hmem) h'.rest
    | cons p' ls' =>
      obtain ⟨a', rfl, ha'⟩ := h'.line p' List.mem_cons_self
      have heq := h.parts.trans h'.parts.symm
      simp only [List.flatten_cons, List.append_assoc, List.singleton_append] at heq
      obtain ⟨rfl, htail⟩ := newline_split ha ha' heq
      obtain ⟨rfl, rfl⟩ := ih ⟨rfl, fun p hp => h.line p (List.mem_cons_of_mem _ hp), h.rest⟩
        ⟨htail.symm, fun p hp => h'.line p (List.mem_cons_of_mem _ hp), h'.rest⟩
      exact ⟨rfl, rfl⟩

/-! ## `Extract` on the received bytes -/

/-- **The scan** from `i` on, when the line that begins at `used` has no newline before `i`. -/
theorem extractLineLoop_lines {ans : Nat → Bool} (hans : ∀ i, ans i = true) {buf : Bytes}
    (hbuf : buf.length < 2 ^ 31) (rest : Bytes) (i used n : Nat) (hi : buf.drop i = rest)
    (hused : used ≤ i) (hile : i ≤ buf.length)
    (hline : newline ∉ (buf.drop used).take (i - used)) :
    ∃ ls r, Lines (buf.drop used) ls r ∧
      (extractLineLoop ans rest i used n).decoded.map (slice buf) = ls ∧
      (extractLineLoop ans rest i used n).delivered.map (slice buf) = ls ∧
      (extractLineLoop ans rest i used n).ret = ((buf.length - r.length : Nat) : Int) := by
  induction rest generalizing i used n with
  | nil =>
    have hend : i = buf.length := by
      have := congrArg List.length hi
      rw [List.length_drop, List.length_nil] at this
      omega
    have htake : (buf.drop used).take (i - used) = buf.drop used := by
      rw [hend]
      exact List.take_of_length_le (by rw [List.length_drop])
    rw [htake] at hline
    refine ⟨[], buf.drop used, ⟨rfl, by simp, hline⟩, rfl, rfl, ?_⟩
    rw [List.length_drop, extractLineLoop]
    rw [show buf.length - (buf.length - used) = used by omega]
    exact Int32.toInt_ofNat_of_lt (by omega)
  | cons b rest ih =>
    have hlt : i < buf.length := by
      have := congrArg List.length hi
      rw [List.length_drop, List.length_cons] at this
      omega
    have hnext : buf.drop (i + 1) = rest := by
      rw [← List.drop_drop, hi]
      rfl
    have hpart : (buf.drop used).take (i + 1 - used) =
        (buf.drop used).take (i - used) ++ [b] := by
      have hb : (buf.drop used)[i - used]? = some b := by
        rw [List.getElem?_drop, show used + (i - used) = i by omega, ← List.head?_drop, hi]
        rfl
      rw [show i + 1 - used = (i - used) + 1 by omega, List.take_add_one, hb]
      rfl
    rw [extractLineLoop]
    by_cases hb : b = newline
    · rw [if_pos hb, if_pos (hans n)]
      obtain ⟨ls, r, hl, hdec, hdel, hret⟩ := ih (i + 1) (i + 1) (n + 1) hnext (Nat.le_refl _) hlt
        (by simp)
      have hslice : slice buf (used, i - used + 1) =
          (buf.drop used).take (i - used) ++ [newline] := by
        rw [← hb, ← hpart, show i + 1 - used = i - used + 1 by omega]
        rfl
      refine ⟨_ :: ls, r, ⟨?_, ?_, hl.rest⟩, by rw [List.map_cons, hdec, hslice],
        by rw [List.map_cons, hdel, hslice], hret⟩
      · rw [List.flatten_cons, List.append_assoc, hl.parts, ← hb, ← hpart]
        nth_rewrite 2 [← List.take_append_drop (i + 1 - used) (buf.drop used)]
        rw [List.drop_drop, show used + (i + 1 - used) = i + 1 by omega]
      · intro p hp
        rcases List.mem_cons.mp hp with rfl | hp
        · exact ⟨_, rfl, hline⟩
        · exact hl.line p hp
    · rw [if_neg hb]
      refine ih (i + 1) used n hnext (by omega) hlt ?_
      rw [hpart]
      intro hm
      rcases List.mem_append.mp hm with hm | hm
      · exact hline hm
      · exact hb (List.mem_singleton.mp hm).symm

/-- `Extract` decodes the lines and uses all up to the last newline. -/
theorem extractLine_lines {ans : Nat → Bool} (hans : ∀ i, ans i = true) {buf : Bytes}
    (hbuf : buf.length < 2 ^ 31) :
    ∃ ls r, Lines buf ls r ∧ (extractLine buf ans).decoded.map (slice buf) = ls ∧
      (extractLine buf ans).delivered.map (slice buf) = ls ∧
      (extractLine buf ans).ret = ((buf.length - r.length : Nat) : Int) :=
  extractLineLoop_lines hans hbuf buf 0 0 0 rfl (Nat.le_refl _) (Nat.zero_le _) (by simp)

/-! ## Every way of cutting the stream -/

/-- The connection after the bytes `l`. -/
structure LinesReceived (l : Bytes) (h : Handler) : Prop where
  opened : h.closed = false
  decoded : h.decoded = h.delivered
  lines : Lines l h.delivered h.recvbuffer.data

/-- One piece. -/
theorem LinesReceived.step {ans : Nat → Bool} (hans : ∀ i, ans i = true) {l chunk : Bytes}
    {h : Handler} (hr : LinesReceived l h) (hchunk : chunk.length ≤ RECV_SIZE)
    (hlen : (l ++ chunk).length < 2 ^ 31) :
    ∃ h', handleInputLine ans chunk h = some h' ∧ LinesReceived (l ++ chunk) h' := by
  have hle : (h.recvbuffer.data ++ chunk).length ≤ (l ++ chunk).length := by
    rw [← hr.lines.parts]
    simp only [List.length_append]
    omega
  obtain ⟨ls, r, hl, hdec, hdel, hret⟩ := @extractLine_lines
    (fun i => ans (h.decoded.length + i)) (fun i => hans _) _ (hle.trans_lt hlen)
  obtain ⟨h', hrun, hdec', hdel', -, hpos⟩ := @handleInputWith_data
    (fun buf => some (extractLine buf fun i => ans (h.decoded.length + i))) _ h hchunk _ rfl
    (by rw [hret]; omega)
  obtain ⟨hclosed, hdata⟩ := hpos (by omega)
  rw [hdec, hr.decoded] at hdec'
  rw [hdel] at hdel'
  have hrest : h'.recvbuffer.data = r := by
    rw [hdata, hret, Int.toNat_natCast, ← hl.parts, List.length_append, Nat.add_sub_cancel,
      List.drop_left]
  refine ⟨h', hrun, hclosed.trans hr.opened, hdec'.trans hdel'.symm, ?_⟩
  rw [hdel', hrest]
  exact hr.lines.append hl

/-- All pieces. -/
theorem linesReceived_handleInputLines {ans : Nat → Bool} (hans : ∀ i, ans i = true)
    {chunks : List Bytes} (hchunks : ∀ chunk ∈ chunks, chunk.length ≤ RECV_SIZE) {l : Bytes}
    {h : Handler} (hr : LinesReceived l h) (hlen : (l ++ chunks.flatten).length < 2 ^ 31) :
    ∃ h', handleInputLines ans chunks h = some h' ∧ LinesReceived (l ++ chunks.flatten) h' := by
  induction chunks generalizing l h with
  | nil => exact ⟨h, rfl, by simpa using hr⟩
  | cons chunk chunks ih =>
    rw [List.flatten_cons, ← List.append_assoc] at hlen ⊢
    obtain ⟨h₁, hrun, hr₁⟩ := hr.step hans (hchunks chunk List.mem_cons_self) (by
      rw [List.length_append] at hlen
      omega)
    obtain ⟨h', hrun', hr'⟩ := ih (fun c hc => hchunks c (List.mem_cons_of_mem _ hc)) hr₁ hlen
    refine ⟨h', ?_, hr'⟩
    rw [handleInputLines, hr.opened, if_neg Bool.false_ne_true, hrun]
    exact hrun'

/-- **Line extraction.** A stream is received in pieces, cut in any way, and every message is
created. After every piece the lines received so far were decoded and delivered, each once and in
order, and the buffer has the bytes behind the last newline. -/
theorem line_extraction {ans : Nat → Bool} (hans : ∀ i, ans i = true) {chunks : List Bytes}
    (hlen : chunks.flatten.length < 2 ^ 31)
    (hchunks : ∀ chunk ∈ chunks, 1 ≤ chunk.length ∧ chunk.length ≤ RECV_SIZE) :
    ∀ n ≤ chunks.length, ∃ h, handleInputLines ans (chunks.take n) Handler.opened = some h ∧
      h.closed = false ∧ h.decoded = h.delivered ∧
      Lines (chunks.take n).flatten h.delivered h.recvbuffer.data := by
  intro n _
  have hle : (chunks.take n).flatten.length < 2 ^ 31 := by
    rw [← List.take_append_drop n chunks, List.flatten_append, List.length_append] at hlen
    omega
  obtain ⟨h, hrun, hr⟩ := @linesReceived_handleInputLines ans hans (chunks.take n)
    (fun c hc => (hchunks c (List.mem_of_mem_take hc)).2)
    [] Handler.opened ⟨rfl, rfl, lines_nil⟩ (by simpa using hle)
  exact ⟨h, hrun, hr.opened, hr.decoded, hr.lines⟩

theorem line_extraction_two_lines : ∃ h, handleInputLines (fun _ => true)
    [[97], [98, 10, 99], [10, 100]] Handler.opened = some h ∧
      h.delivered = [[97, 98, 10], [99, 10]] ∧ h.recvbuffer.data = [100] := by
  obtain ⟨h, hrun, -, -, hl⟩ := @line_extraction (fun _ => true) (fun _ => rfl)
    [[97], [98, 10, 99], [10, 100]] (by decide) (by decide) 3 (by decide)
  have hlines : Lines [97, 98, 10, 99, 10, 100] [[97, 98, 10], [99, 10]] [100] := by
    refine ⟨rfl, ?_, by decide⟩
    intro p hp
    rcases List.mem_cons.mp hp with rfl | hp
    · exact ⟨[97, 98], rfl, by decide⟩
    · obtain rfl := List.mem_singleton.mp hp
      exact ⟨[99], rfl, by decide⟩
  obtain ⟨hdel, hdata⟩ := hl.unique hlines
  exact ⟨h, hrun, hdel, hdata⟩

end Domq.Netmgr
