import Domq.Lib.Search
import Domq.Mq.Message
import Domq.Mq.State
import Domq.Netmgr.Threads

/-!
# Admin commands

`QueueProcessor::ProcessMsg` of a `LineMessage` (`queueprocessor.cpp`), with `QueueMgr::GetClients`
(`queuemgr.cpp`) and `QueueClient::ToString` (`queue.cpp`).

* A command is found by `strncasecmp` against one text after the other, so `exit thread` is tried
  before `exit`.
* `LineCalls` holds what the other calls on the way return: the number of threads, the results of
  `LoadQueueMeta` and `GetAllQueue`. `StopAll` and `Open` return nothing the reply shows.
* `size() - 1` is of type `size_t`: of an empty string it is the largest value (`sizePred`).

* `Message.kind` is what `Domq.Netmgr.Threads` sees of a message; only a line that starts with
  `exit` is not answered (`answered_kind_iff`).

Result: `getClient_right_iff`: after `get client` the codes asked for are the words of the rest of
the line exactly when the rest is not empty and does not end in a word of one character.
-/

namespace Domq.Mq

open Domq.Lib

/-! ## Commands -/

/-- `tolower` in the C locale. -/
def tolower (b : UInt8) : UInt8 := if 65 ≤ b ∧ b ≤ 90 then b + 32 else b

/-- `strncasecmp(s, t, n) == 0`, the strings being NUL-terminated. -/
def strncasecmpEq : Bytes → Bytes → Nat → Bool
  | _, _, 0 => true
  | s, t, n + 1 =>
    if tolower (s.headD 0) ≠ tolower (t.headD 0) then false
    else if s.headD 0 = 0 then true
    else strncasecmpEq s.tail t.tail n

/-- `QueueCmd`. -/
inductive QueueCmd
  | help | openDebug | closeDebug | openNetInfo | closeNetInfo | openInfo | closeInfo
  | exitThread | exit | status | loadMeta | reload | getClient | allQueue
  deriving DecidableEq

namespace QueueCmd

def text : QueueCmd → Bytes
  | .help => ascii "help"
  | .openDebug => ascii "open debug"
  | .closeDebug => ascii "close debug"
  | .openNetInfo => ascii "open netinfo"
  | .closeNetInfo => ascii "close netinfo"
  | .openInfo => ascii "open info"
  | .closeInfo => ascii "close info"
  | .exitThread => ascii "exit thread"
  | .exit => ascii "exit"
  | .status => ascii "status"
  | .loadMeta => ascii "load meta"
  | .reload => ascii "reload"
  | .getClient => ascii "get client"
  | .allQueue => ascii "all queue"

/-- The commands in the order in which a line is compared with them. -/
def order : List QueueCmd :=
  [.help, .openDebug, .closeDebug, .openNetInfo, .closeNetInfo, .openInfo, .closeInfo, .exitThread,
    .exit, .status, .loadMeta, .reload, .getClient, .allQueue]

/-- The command of a line. -/
def ofLine (line : Bytes) : Option QueueCmd :=
  order.find? fun c => strncasecmpEq line c.text c.text.length

end QueueCmd

/-! ## `get client` -/

/-- `" \t,;\r\n"`. -/
def del : Bytes := ascii " \t,;\r\n"

/-- `size() - 1` of a string of size `n`. -/
def sizePred (n : Nat) : Nat := if n = 0 then 2 ^ 64 - 1 else n - 1

/-- The loop over `find_first_of`: `last` and `msgCodes` after it. -/
def scanCodes (data : Bytes) (last : Nat) (msgCodes : List Bytes) : Nat × List Bytes :=
  match _hindex : findFirstOf del data last with
  | none => (last, msgCodes)
  | some index =>
    scanCodes data (index + 1)
      (if last < index then msgCodes ++ [(data.drop last).take (index - last)] else msgCodes)
termination_by data.length - last
decreasing_by
  obtain ⟨w, a, rest, hdrop, -, -, rfl⟩ := findFirstOf_eq_some _hindex
  have hlen := congrArg List.length hdrop
  simp only [List.length_drop, List.length_append, List.length_cons] at hlen
  omega

/-- The codes that are passed to `GetClients`. -/
def splitCodes (data : Bytes) : List Bytes :=
  let (last, msgCodes) := scanCodes data 0 []
  if last < sizePred data.length then msgCodes ++ [data.drop last] else msgCodes

/-- `QueueClient`. -/
structure QueueClient where
  msgQueueCode : Bytes
  clientName : Bytes
  queueName : Bytes

/-- `QueueClient::ToString`. -/
def QueueClient.toString (c : QueueClient) : Bytes :=
  ascii "msgQueueCode:[" ++ c.msgQueueCode ++ ascii "]," ++
    ascii "clientName:[" ++ c.clientName ++ ascii "]," ++
    ascii "queueName:[" ++ c.queueName ++ ascii "]"

/-- The entry that `GetClients` makes for a code. -/
def clientOf (m : QueueMgr) (msgCode : Bytes) : QueueClient :=
  match m.msgQueueCode2QueueName msgCode with
  | none => ⟨msgCode, [], []⟩
  | some item => ⟨msgCode, item.clientName.bytes, item.queueName.bytes⟩

/-- `GetClients`. -/
def getClients (m : QueueMgr) (msgCodes : List Bytes) : List QueueClient :=
  msgCodes.foldl (fun clientInfos msgCode => clientInfos ++ [clientOf m msgCode]) []

/-- `st << header << endl`, then every item with its `endl`. -/
def listing (header : Bytes) (items : List Bytes) : Bytes :=
  items.foldl (fun st item => st ++ item ++ ascii "\n") (header ++ ascii "\n")

/-! ## `ProcessMsg` -/

/-- What the calls made for a line return. -/
structure LineCalls where
  /-- `_livethreads.size()` -/
  livethreads : Nat
  loadQueueMeta : Int
  /-- the result of `GetAllQueue` and the texts of the queues -/
  getAllQueue : Int × List Bytes

/-- How a line is answered. -/
structure LineResult where
  ret : Int
  line : Bytes
  /-- the codes `GetClients` was called with -/
  asked : Option (List Bytes)

/-- `ProcessMsg(const LineMessage& req, LineMessage& res)`. -/
def processLine (calls : LineCalls) (m : QueueMgr) (line : Bytes) : LineResult :=
  match QueueCmd.ofLine line with
  | some .help => ⟨0, listing (ascii "cmd:") ([.help, .openDebug, .closeDebug, .openNetInfo,
      .closeNetInfo, .openInfo, .closeInfo, .exit, .help, .status, .allQueue, .loadMeta,
      .reload].map QueueCmd.text), none⟩
  | some .openDebug => ⟨0, ascii "open debug succ\r\n", none⟩
  | some .closeDebug => ⟨0, ascii "close debug succ\r\n", none⟩
  | some .openNetInfo => ⟨0, ascii "open netinfo succ\r\n", none⟩
  | some .closeNetInfo => ⟨0, ascii "close netinfo succ\r\n", none⟩
  | some .openInfo => ⟨0, ascii "open info succ\r\n", none⟩
  | some .closeInfo => ⟨0, ascii "close info succ\r\n", none⟩
  | some .exitThread => ⟨-1, ascii "exitthread succ\r\n", none⟩
  | some .exit => ⟨-1, ascii "exit succ\r\n", none⟩
  | some .status => ⟨0, ascii "thread:" ++ fmtNat calls.livethreads ++ ascii "\n", none⟩
  | some .loadMeta =>
    ⟨0, if calls.loadQueueMeta = 0 then ascii "succ\r\n" else ascii "fail\r\n", none⟩
  | some .reload => ⟨0, ascii "reload succ\r\n", none⟩
  | some .getClient =>
    let msgCodes := splitCodes (line.drop QueueCmd.getClient.text.length)
    ⟨0, listing (ascii "clientInfo:") ((getClients m msgCodes).map QueueClient.toString),
      some msgCodes⟩
  | some .allQueue =>
    if calls.getAllQueue.1 ≠ 0 then ⟨0, ascii "getallqueue error\r\n", none⟩
    else ⟨0, listing (ascii "meta queue info:") calls.getAllQueue.2, none⟩
  | none => ⟨0, ascii "unknow cmd\r\n", none⟩

/-- A line ends the loop of its thread exactly if its command is `exit` or `exit thread`. -/
theorem processLine_ret_neg_iff (calls : LineCalls) (m : QueueMgr) (line : Bytes) :
    (processLine calls m line).ret < 0 ↔
      QueueCmd.ofLine line = some .exitThread ∨ QueueCmd.ofLine line = some .exit := by
  unfold processLine
  rcases QueueCmd.ofLine line with - | c
  · simp
  · cases c with
    | allQueue =>
      dsimp only
      split
      · simp
      · simp
    | _ => simp

/-- What `QueueProcessor` does with a message. -/
def Message.kind (calls : LineCalls) (mgr : QueueMgr) (m : Message) : Netmgr.MsgKind :=
  match m.content with
  | .request _ => .request
  | .line line => .line (decide ((processLine calls mgr line).ret < 0))

/-- Every message is answered but a line with one of these commands. -/
theorem answered_kind_iff (calls : LineCalls) (mgr : QueueMgr) (m : Message) :
    (m.kind calls mgr).Answered ↔ ∀ line, m.content = .line line →
      QueueCmd.ofLine line ≠ some .exitThread ∧ QueueCmd.ofLine line ≠ some .exit := by
  unfold Message.kind Netmgr.MsgKind.Answered
  cases m.content with
  | request r => simp
  | line line => simp [processLine_ret_neg_iff]

/-! ## The scan -/

/-- The rest ends in a word of one character. -/
def LoneTail (data : Bytes) : Prop :=
  ∃ u c, c ∉ del ∧ data = u ++ [c] ∧ ∀ a ∈ u.getLast?, a ∈ del

/-- **The loop**: it has collected all words but what follows the last delimiter. -/
theorem scanCodes_spec (data : Bytes) (last : Nat) (msgCodes : List Bytes)
    (hlast : last ≤ data.length) :
    ∃ ws r, scanCodes data last msgCodes = (data.length - r.length, msgCodes ++ ws) ∧
      tokens del (data.drop last) = ws ++ tokens del r ∧ (∀ a ∈ r, a ∉ del) ∧
      (data.drop last = r ∨ ∃ u a, a ∈ del ∧ data.drop last = u ++ a :: r) := by
  induction last, msgCodes using scanCodes.induct data with
  | case1 last msgCodes hnone =>
    refine ⟨[], data.drop last, ?_, rfl, findFirstOf_eq_none hnone, Or.inl rfl⟩
    rw [scanCodes, hnone, List.length_drop, List.append_nil]
    simp only [Prod.mk.injEq, and_true]
    omega
  | case2 last msgCodes index hsome ih =>
    obtain ⟨w, a, rest, hdrop, hfree, ha, rfl⟩ := findFirstOf_eq_some hsome
    have hlen := congrArg List.length hdrop
    simp only [List.length_drop, List.length_append, List.length_cons] at hlen
    have hnext : data.drop (last + w.length + 1) = rest := by
      rw [Nat.add_assoc, ← List.drop_drop, hdrop]
      simp
    obtain ⟨ws, r, hscan, htok, hr, htail⟩ := ih (by omega)
    rw [hnext] at htok htail
    refine ⟨(if w = [] then [] else [w]) ++ ws, r, ?_, ?_, hr, Or.inr ?_⟩
    · rw [scanCodes, hsome]
      simp only [dite_eq_ite] at hscan ⊢
      have hword : (data.drop last).take (last + w.length - last) = w := by
        rw [hdrop, Nat.add_sub_cancel_left, List.take_left]
      rw [hscan, hword]
      by_cases hw : w = []
      · simp [hw]
      · have hpos : 0 < w.length := List.length_pos_iff.mpr hw
        simp [hw, hpos]
    · rw [hdrop, tokens_append_cons hfree ha, htok, List.append_assoc]
    · rcases htail with rfl | ⟨u, b, hb, rfl⟩
      · exact ⟨w, a, ha, hdrop⟩
      · exact ⟨w ++ a :: u, b, hb, by rw [hdrop]; simp⟩

/-- The codes asked for: all words but a last one of one character, and the empty code for an empty
text. -/
theorem splitCodes_spec (data : Bytes) :
    ∃ ws r, splitCodes data = ws ++ (if data = [] then [[]] else if 1 < r.length then [r] else []) ∧
      tokens del data = ws ++ tokens del r ∧ (∀ a ∈ r, a ∉ del) ∧
      (data = r ∨ ∃ u a, a ∈ del ∧ data = u ++ a :: r) := by
  obtain ⟨ws, r, hscan, htok, hfree, htail⟩ := scanCodes_spec data 0 [] (Nat.zero_le _)
  rw [List.drop_zero] at htok htail
  refine ⟨ws, r, ?_, htok, hfree, htail⟩
  have hsuffix : r <:+ data := by
    rcases htail with rfl | ⟨u, a, -, rfl⟩
    · exact List.suffix_refl _
    · exact ⟨u ++ [a], by simp⟩
  unfold splitCodes
  rw [hscan]
  simp only [List.nil_append]
  have hle := hsuffix.length_le
  by_cases hdata : data = []
  · subst hdata
    have hr : r = [] := List.suffix_nil.mp hsuffix
    simp [sizePred]
  · have hpos : 0 < data.length := List.length_pos_iff.mpr hdata
    have hdrop : data.drop (data.length - r.length) = r :=
      (List.suffix_iff_eq_drop.mp hsuffix).symm
    have hpred : sizePred data.length = data.length - 1 := if_neg (by omega)
    rw [if_neg hdata, hpred, hdrop]
    by_cases hr : 1 < r.length
    · rw [if_pos hr, if_pos (by omega)]
    · rw [if_neg hr, if_neg (by omega), List.append_nil]

theorem loneTail_iff {data r : Bytes} (hfree : ∀ a ∈ r, a ∉ del)
    (htail : data = r ∨ ∃ u a, a ∈ del ∧ data = u ++ a :: r) :
    LoneTail data ↔ r.length = 1 := by
  constructor
  · rintro ⟨u, c, hc, rfl, hu⟩
    rcases List.eq_nil_or_concat r with rfl | ⟨r', c', rfl⟩
    · rcases htail with h | ⟨v, a, ha, h⟩
      · simp at h
      · obtain ⟨-, hca⟩ := List.append_inj' h rfl
        obtain rfl : c = a := by simpa using hca
        exact absurd ha hc
    · -- a character before the last one of `r` would be the delimiter before the lone one
      have hnil : r' = [] := by
        by_contra hne
        have hlast : ∀ b ∈ r'.getLast?, b ∈ del := by
          intro b hb
          apply hu b
          rcases htail with h | ⟨v, a, -, h⟩
          · obtain ⟨rfl, -⟩ : u = r' ∧ c = c' := by simpa using h
            exact hb
          · have h' : u ++ [c] = (v ++ a :: r') ++ [c'] := by simpa using h
            have hb' : r'.getLast? = some b := hb
            rw [(List.append_inj' h' rfl).1]
            simp [List.getLast?_append, List.getLast?_cons, hb']
        have hmem := List.getLast_mem hne
        exact hfree _ (by simp [hmem]) (hlast _ (List.getLast?_eq_some_getLast hne))
      simp [hnil]
  · intro hr
    obtain ⟨c, rfl⟩ := List.length_eq_one_iff.mp hr
    rcases htail with rfl | ⟨u, a, ha, rfl⟩
    · exact ⟨[], c, hfree c (by simp), rfl, by simp⟩
    · exact ⟨u ++ [a], c, hfree c (by simp), by simp, by simpa using ha⟩

/-- The codes asked for are the words of the text. -/
theorem splitCodes_isTokens_iff (data : Bytes) :
    IsTokens del data (splitCodes data) ↔ data ≠ [] ∧ ¬ LoneTail data := by
  obtain ⟨ws, r, hcodes, htok, hfree, htail⟩ := splitCodes_spec data
  rw [isTokens_iff, hcodes, htok, loneTail_iff hfree htail, List.append_cancel_left_eq]
  have hr : tokens del r = if r = [] then [] else [r] := by
    by_cases hr : r = []
    · subst hr
      rfl
    · rw [if_neg hr, tokens_of_free hr hfree]
  rw [hr]
  by_cases hdata : data = []
  · have hnil : r = [] := by
      rcases htail with h | ⟨u, a, -, h⟩
      · rw [← h, hdata]
      · rw [hdata] at h
        simp at h
    simp [hdata, hnil]
  · rw [if_neg hdata]
    simp only [ne_eq, hdata, not_false_eq_true, true_and]
    rcases r with - | ⟨c, - | ⟨d, r⟩⟩
    · simp
    · simp
    · simp

/-! ## The reply -/

theorem getClients_eq (m : QueueMgr) (msgCodes : List Bytes) :
    getClients m msgCodes = msgCodes.map (clientOf m) := by
  have hfold : ∀ (acc : List QueueClient), msgCodes.foldl
      (fun clientInfos msgCode => clientInfos ++ [clientOf m msgCode]) acc =
        acc ++ msgCodes.map (clientOf m) := by
    induction msgCodes with
    | nil => simp
    | cons msgCode msgCodes ih => intro acc; simp [ih]
  exact hfold []

theorem listing_eq (header : Bytes) (items : List Bytes) :
    listing header items =
      header ++ ascii "\n" ++ items.flatMap fun item => item ++ ascii "\n" := by
  unfold listing
  generalize header ++ ascii "\n" = st
  induction items generalizing st with
  | nil => simp
  | cons item items ih => rw [List.foldl_cons, ih, List.flatMap_cons]; simp

/-- A line that starts with `get client` is found to be that command. -/
theorem ofLine_getClient (data : Bytes) :
    QueueCmd.ofLine (ascii "get client" ++ data) = some .getClient := by
  rfl

/-- `get client` as it should be answered: the words of the rest of the line are asked for, and the
reply lists one entry for each in their order. -/
def ListsClients (calls : LineCalls) (m : QueueMgr) (data : Bytes) : Prop :=
  ∃ codes, IsTokens del data codes ∧
    (processLine calls m (ascii "get client" ++ data)).asked = some codes ∧
    (processLine calls m (ascii "get client" ++ data)).ret = 0 ∧
    (processLine calls m (ascii "get client" ++ data)).line =
      ascii "clientInfo:\n" ++ codes.flatMap fun code => (clientOf m code).toString ++ ascii "\n"

theorem processLine_getClient (calls : LineCalls) (m : QueueMgr) (data : Bytes) :
    processLine calls m (ascii "get client" ++ data) =
      ⟨0, ascii "clientInfo:\n" ++
        (splitCodes data).flatMap fun code => (clientOf m code).toString ++ ascii "\n",
        some (splitCodes data)⟩ := by
  have hrest : (ascii "get client" ++ data).drop QueueCmd.getClient.text.length = data :=
    List.drop_left
  unfold processLine
  rw [ofLine_getClient]
  simp only [hrest, getClients_eq, listing_eq, List.map_map, List.flatMap_map]
  rfl

/-- **`get client`.** -/
theorem getClient_right_iff (calls : LineCalls) (m : QueueMgr) (data : Bytes) :
    ListsClients calls m data ↔ data ≠ [] ∧ ¬ LoneTail data := by
  rw [← splitCodes_isTokens_iff]
  unfold ListsClients
  rw [processLine_getClient]
  constructor
  · rintro ⟨codes, htok, hasked, -⟩
    rwa [Option.some.inj hasked]
  · exact fun htok => ⟨_, htok, rfl, rfl, rfl⟩

/-- A code of one character at the end of the line is dropped. -/
theorem getClient_wrong : ¬ ∀ (calls : LineCalls) (m : QueueMgr) (data : Bytes),
    ListsClients calls m data := by
  intro hall
  have hlists := hall ⟨0, 0, 0, []⟩ ⟨fun _ => none, fun _ => none, [], fun _ => none, 0, 0⟩
    (ascii " a")
  obtain ⟨codes, htok, hasked, -⟩ := hlists
  rw [processLine_getClient, Option.some.injEq] at hasked
  subst hasked
  refine ((splitCodes_isTokens_iff _).mp htok).2
    ⟨ascii " ", 97, by decide, by decide, fun a ha => ?_⟩
  obtain rfl : (32 : UInt8) = a := Option.some.inj ha
  decide

end Domq.Mq
