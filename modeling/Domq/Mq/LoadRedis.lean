import Domq.Mq.Acknowledge
import Domq.Mq.Load

/-!
# `LoadQueues` against Redis

A Redis that refuses nothing (`quiet`) answers every reading command from its store and keeps it. So
`LoadQueues` gets through whenever the hash of every member is `Complete`, that is, has the five
fields `CreatePublisher` writes, in whatever order.

* `getQueueValue_metaHash`: `GetQueueValue` accepts a complete hash, and what it makes of it.
* `Sane` is what is needed of the store, `TableOf` the table that is then loaded.
* `loadQueues_returns`: `LoadQueues` returns `0`, with every reply read, the store as it was and its
  table swapped in.
-/

namespace Domq.Mq

open Domq.Lib Domq.Redis

/-- Redis, refusing nothing. -/
abbrev quiet : Peer (Nat × Store) := redisPeer fun _ => none

/-! ## Metadata -/

/-- The fields of a queue's metadata. -/
def metaNames : List Bytes :=
  [ascii "name", ascii "duration", ascii "maxcount", ascii "type", ascii "lastvisit"]

/-- A hash as this server writes it: fields of metadata, each once, in any order. -/
structure MetaHash (h : List (Bytes × Bytes)) : Prop where
  nodup : (fields h).Nodup
  names : ∀ f ∈ fields h, f ∈ metaNames

/-- What `GetQueueValue` makes of such a hash: each field it has, over what was there. -/
def readMeta (h : List (Bytes × Bytes)) (queue : Queue) : Queue :=
  let int (field : String) (old : Int32) := ((hget h (ascii field)).map
    fun v => Int32.ofInt (atol v)).getD old
  { queue with
    option :=
      { msgQueueName := (hget h (ascii "name")).getD queue.option.msgQueueName
        msgType := int "type" queue.option.msgType
        duration := int "duration" queue.option.duration
        maxCount := int "maxcount" queue.option.maxCount }
    lastVisit := ((hget h (ascii "lastvisit")).map atol).getD queue.lastVisit }

theorem hget_eq_none {h : List (Bytes × Bytes)} {f : Bytes} (hf : f ∉ fields h) :
    hget h f = none := by
  induction h with
  | nil => rfl
  | cons fv h ih =>
    obtain ⟨g, v⟩ := fv
    have hf' : f ≠ g ∧ f ∉ fields h := by
      rw [← not_or, ← List.mem_cons]
      exact hf
    rw [hget, if_neg hf'.1.symm, ih hf'.2]

theorem getQueueValueLoop_metaHash {h : List (Bytes × Bytes)} (hm : MetaHash h) (queue : Queue)
    (count : Nat) :
    getQueueValueLoop (pairs h).elements queue count = (readMeta h queue, count + h.length) := by
  induction h generalizing queue count with
  | nil => rfl
  | cons fv h ih =>
    obtain ⟨f, v⟩ := fv
    obtain ⟨hnot, hnodup⟩ : f ∉ fields h ∧ (fields h).Nodup := List.nodup_cons.mp hm.nodup
    have hrest : MetaHash h := ⟨hnodup, fun g hg => hm.names g (List.mem_cons_of_mem _ hg)⟩
    have hnone := hget_eq_none hnot
    have hlen : count + (List.length ((f, v) :: h)) = count + 1 + h.length := by
      rw [List.length_cons]
      omega
    have hel : (pairs ((f, v) :: h)).elements =
        .string f :: .string v :: (pairs h).elements := rfl
    have hf : f ∈ metaNames := hm.names f List.mem_cons_self
    simp only [metaNames, List.mem_cons, List.not_mem_nil, or_false] at hf
    rw [hel, getQueueValueLoop, hlen]
    have hself : hget ((f, v) :: h) f = some v := if_pos rfl
    have hother : ∀ g, f ≠ g → hget ((f, v) :: h) g = hget h g := fun g hg => if_neg hg
    rcases hf with rfl | rfl | rfl | rfl | rfl
    · refine (ih hrest _ _).trans ?_
      simp only [readMeta, hself, hnone, hother (ascii "type") (by decide),
        hother (ascii "duration") (by decide), hother (ascii "maxcount") (by decide),
        hother (ascii "lastvisit") (by decide)]
      rfl
    · refine (ih hrest _ _).trans ?_
      simp only [readMeta, hself, hnone, hother (ascii "type") (by decide),
        hother (ascii "name") (by decide), hother (ascii "maxcount") (by decide),
        hother (ascii "lastvisit") (by decide)]
      rfl
    · refine (ih hrest _ _).trans ?_
      simp only [readMeta, hself, hnone, hother (ascii "type") (by decide),
        hother (ascii "name") (by decide), hother (ascii "duration") (by decide),
        hother (ascii "lastvisit") (by decide)]
      rfl
    · refine (ih hrest _ _).trans ?_
      simp only [readMeta, hself, hnone, hother (ascii "duration") (by decide),
        hother (ascii "name") (by decide), hother (ascii "maxcount") (by decide),
        hother (ascii "lastvisit") (by decide)]
      rfl
    · refine (ih hrest _ _).trans ?_
      simp only [readMeta, hself, hnone, hother (ascii "type") (by decide),
        hother (ascii "name") (by decide), hother (ascii "maxcount") (by decide),
        hother (ascii "duration") (by decide)]
      rfl

/-- The hash has all the fields of a queue's metadata. -/
def Complete (h : List (Bytes × Bytes)) : Prop := ∀ f ∈ metaNames, f ∈ fields h

/-- `GetQueueValue` accepts a complete hash of this server. -/
theorem getQueueValue_metaHash {h : List (Bytes × Bytes)} (hm : MetaHash h) (hc : Complete h)
    (queue : Queue) : getQueueValue queue (pairs h) = some (readMeta h queue) := by
  have hlen : 5 ≤ h.length := by
    have hle := List.Nodup.length_le_of_subset (show metaNames.Nodup by decide) hc
    rwa [fields, List.length_map] at hle
  unfold getQueueValue
  rw [getQueueValueLoop_metaHash hm]
  simp only
  rw [if_neg (by omega)]

/-! ## The store -/

/-- What `LoadQueues` needs of the store: keys of the right kind, a set of names a client can have
given, hashes as this server writes them, and those of the members complete. -/
structure Sane (st : Store) : Prop where
  typed : WellTyped st
  nodup : (st.members allQueueName).Nodup
  names : ∀ n ∈ st.members allQueueName, ∃ q : CStr, n = q.bytes
  hashes : ∀ q : CStr, MetaHash (st.hash (getQueueMetaName q.bytes))
  complete : ∀ q : CStr, q.bytes ∈ st.members allQueueName →
    Complete (st.hash (getQueueMetaName q.bytes))

/-- The subscribers a queue has in the store: the fields of their hash, each with the time that is
its value and the length of its own list. -/
def subscribersOf (st : Store) (name : Bytes) : List SubQueue :=
  (st.hash (cStr (getSubQueueMetaName name))).map fun fv =>
    { client := CStr.ofBytes fv.1
      msgCount := toSize (st.list (cStr (getQueueSubName name (CStr.ofBytes fv.1).bytes))).length
      lastVisit := atol fv.2 }

/-- The queue is loaded: what its hash says, the length of its list and, for a `SUB2PUB` queue, its
subscribers. -/
structure LoadedFrom (st : Store) (q : CStr) (queue : Queue) : Prop where
  option : queue.option = (readMeta (st.hash (getQueueMetaName q.bytes)) Queue.empty).option
  msgCount : queue.msgCount = toSize (st.list (getQueueMsgName q.bytes)).length
  lastVisit : queue.lastVisit =
    (readMeta (st.hash (getQueueMetaName q.bytes)) Queue.empty).lastVisit
  clients : queue.clients =
    if queue.option.msgType = SUB2PUB then subscribersOf st queue.option.msgQueueName else []

/-- A table with an entry for each member and no other. -/
structure TableOf (st : Store) (table : CStr → Option Queue) : Prop where
  member : ∀ q : CStr, q.bytes ∈ st.members allQueueName → ∃ queue, table q = some queue ∧
    LoadedFrom st q queue
  other : ∀ q : CStr, q.bytes ∉ st.members allQueueName → table q = none

/-! ## Reading commands -/

/-- The command only reads. -/
def IsReading (c : Cmd) : Prop := ∀ st, c.write st = none

theorem quiet_reading {c : Cmd} (hc : IsReading c) (s : Nat × Store) :
    quiet c s = (some (c.exec s.2).1, s.1 + 1, s.2) := by
  have hstore : (c.exec s.2).2 = s.2 := by
    unfold Cmd.exec
    split
    · rw [hc s.2]
    · rfl
  show (some (c.exec s.2).1, s.1 + 1, (c.exec s.2).2) = _
  rw [hstore]

theorem answers_reading {cs : List Cmd} (hcs : ∀ c ∈ cs, IsReading c) (s : Nat × Store) :
    Talk.answers quiet cs s = (cs.map fun c => (c, some (c.exec s.2).1)) ∧
      (Talk.after quiet cs s).2 = s.2 := by
  induction cs generalizing s with
  | nil => exact ⟨rfl, rfl⟩
  | cons c cs ih =>
    have hc := quiet_reading (hcs c List.mem_cons_self) s
    have hrest := ih (fun c' hc' => hcs c' (List.mem_cons_of_mem c hc')) (quiet c s).2
    have hstore : (quiet c s).2.2 = s.2 := by rw [hc]
    rw [hstore] at hrest
    refine ⟨?_, hrest.2⟩
    rw [Talk.answers, hrest.1, hc, List.map_cons]

/-- A procedure that has only read: the connection is idle again, and the store and the manager are
what they were. -/
structure Read (w w' : Talk (Nat × Store)) : Prop where
  idle : w'.Idle
  store : w'.peer.2 = w.peer.2
  mgr : w'.mgr = w.mgr

theorem Read.trans {w₁ w₂ w₃ : Talk (Nat × Store)} (h : Read w₁ w₂) (h' : Read w₂ w₃) :
    Read w₁ w₃ := ⟨h'.idle, h'.store.trans h.store, h'.mgr.trans h.mgr⟩

/-! ## `LoadQueues` returns -/

section Returns

variable (clock : Nat → Nat) (uuid : Uuid) {w : Talk (Nat × Store)}

theorem loadCounts_returns {π : Type} {P : Peer π} {w : Talk π} (size : Nat) {subs : List SubQueue}
    {cmd : SubQueue → Cmd} {count : SubQueue → Int}
    (hu : w.unread = subs.map fun sub => (cmd sub, some (.integer (count sub)))) :
    (loadCounts size subs).eval (Talk.exec P clock uuid) w =
      some (.ok (subs.map fun sub => { sub with msgCount := toSize (count sub) }),
        { w with taken := w.taken + subs.length }) := by
  induction subs generalizing w with
  | nil => rfl
  | cons sub rest ih =>
    have hrest := ih (Talk.unread_take hu)
    have hret : ¬ checkReply (some (.integer (count sub))) .integer (-1) true ≠ 0 := fun h => h rfl
    rw [loadCounts, Talk.eval_getReply_unread _ hu]
    simp only [if_neg hret]
    rw [Prog.eval_bind, hrest]
    simp only [Option.bind_some]
    rw [List.length_cons, Nat.add_comm rest.length 1, ← Nat.add_assoc]
    rfl

/-- The subscribers of a queue are read. -/
theorem loadSubscribers_returns (queue : Queue) (hw : w.Idle) (hst : WellTyped w.peer.2) :
    ∃ w', (loadSubscribers queue).eval (Talk.exec quiet clock uuid) w =
      some (.ok { queue with clients := subscribersOf w.peer.2 queue.option.msgQueueName }, w') ∧
        Read w w' := by
  have hreads : IsReading (.hgetall (cStr (getSubQueueMetaName queue.option.msgQueueName))) :=
    fun _ => rfl
  have hkeyed : WellKeyed (.hgetall (cStr (getSubQueueMetaName queue.option.msgQueueName))) := by
    rintro k κ ⟨⟩
    exact kindOf_cStr_getSubQueueMetaName _
  generalize hx : (loadSubscribers queue).eval (Talk.exec quiet clock uuid) w = x
  obtain ⟨r, w₁, hr, hidle, hmgr₁, -, h⟩ := hw.ask hx
  rw [quiet_reading hreads] at hr
  obtain ⟨hr, hpeer₁⟩ := Prod.mk.inj hr
  have hread : Read w w₁ := ⟨hidle, by rw [hpeer₁], hmgr₁⟩
  rw [Cmd.exec_reply (hst.fits hkeyed)] at hr
  obtain ⟨hash, hhash⟩ : ∃ hash,
      w.peer.2.hash (cStr (getSubQueueMetaName queue.option.msgQueueName)) = hash := ⟨_, rfl⟩
  obtain rfl : r = some (pairs hash) := hhash ▸ hr
  have hl := loadClients_pairs hash
  have hret : ¬ checkReply (some (pairs hash)) .array (-1) false ≠ 0 := fun h => h rfl
  have hnil : ¬ (pairs hash).type = .nil := by
    show ¬ ReplyType.array = .nil
    decide
  simp only [if_neg hret, if_neg hnil, hl] at h
  -- the lengths of the lists
  generalize hclients : (hash.map fun fv => (⟨CStr.ofBytes fv.1, 0, atol fv.2⟩ : SubQueue)) =
    clients at h
  obtain ⟨lens, w₂, hlens, hpeer, -, hu, hmgr, htaken, -, h⟩ := hread.idle.appendAll h
  let key (sub : SubQueue) : Bytes :=
    cStr (getQueueSubName queue.option.msgQueueName sub.client.bytes)
  have hllen : ∀ sub : SubQueue, ((Cmd.llen (key sub)).exec w₁.peer.2).1 =
      .integer (w.peer.2.list (key sub)).length := by
    intro sub
    have hk : WellKeyed (.llen (key sub)) := by
      rintro k κ ⟨⟩
      exact kindOf_cStr_getQueueSubName _ _
    rw [hread.store, Cmd.exec_reply (hst.fits hk)]
    rfl
  have hreading : ∀ c ∈ clients.map (fun sub => Cmd.llen (key sub)), IsReading c := by
    intro c hc
    obtain ⟨sub, -, rfl⟩ := List.mem_map.mp hc
    exact fun _ => rfl
  obtain ⟨hanswers, hstore⟩ := answers_reading hreading w₁.peer
  have hu' : w₂.unread = clients.map fun sub =>
      (Cmd.llen (key sub), some (.integer (w.peer.2.list (key sub)).length)) := by
    rw [hu, hlens, hanswers, List.map_map]
    exact List.map_congr_left fun sub _ => by rw [Function.comp_apply, hllen]
  rw [Prog.eval_bind, loadCounts_returns clock uuid (P := quiet) clients.length hu'] at h
  simp only [Option.bind_some] at h
  subst h
  refine ⟨{ w₂ with taken := w₂.taken + clients.length }, ?_, hread.trans ⟨?_, ?_, hmgr⟩⟩
  · rw [subscribersOf, hhash, ← hclients, List.map_map]
    rfl
  · rw [List.length_map] at htaken
    exact htaken
  · show w₂.peer.2 = _
    rw [hpeer, hstore]

/-- The queue of one member is read. -/
theorem loadQueue_returns {tmp : CStr → Option Queue} {q : CStr} (htmp : tmp q = none) (hw : w.Idle)
    (hst : WellTyped w.peer.2) (hm : MetaHash (w.peer.2.hash (getQueueMetaName q.bytes)))
    (hc : Complete (w.peer.2.hash (getQueueMetaName q.bytes))) :
    ∃ queue w', (loadQueue tmp (.string q.bytes)).eval (Talk.exec quiet clock uuid) w =
      some (.ok queue, w') ∧ LoadedFrom w.peer.2 q queue ∧ Read w w' := by
  have hstring : ¬ checkReply (some (.string q.bytes)) .string (-1) true ≠ 0 := fun h => h rfl
  have hkeyed₁ : WellKeyed (.hgetall (getQueueMetaName q.bytes)) := by
    rintro k κ ⟨⟩
    exact kindOf_getQueueMetaName _
  have hkeyed₂ : WellKeyed (.llen (getQueueMsgName q.bytes)) := by
    rintro k κ ⟨⟩
    exact kindOf_getQueueMsgName _
  generalize hx : (loadQueue tmp (.string q.bytes)).eval (Talk.exec quiet clock uuid) w = x
  unfold loadQueue at hx
  simp only [if_neg hstring] at hx
  rw [show (Reply.string q.bytes).str = q.bytes from rfl, CStr.ofBytes_bytes, htmp] at hx
  obtain ⟨r₁, r₂, w₁, hr₁, hr₂, hu, hmgr, htaken, -, h⟩ := hw.askTwo hx
  rw [quiet_reading (fun _ => rfl)] at hr₁ hr₂
  obtain ⟨hr₂, hpeer⟩ := Prod.mk.inj hr₂
  rw [quiet_reading (fun _ => rfl)] at hr₂ hpeer
  rw [Cmd.exec_reply (hst.fits hkeyed₂)] at hr₂
  rw [Cmd.exec_reply (hst.fits hkeyed₁)] at hr₁
  obtain rfl : r₁ = some (pairs (w.peer.2.hash (getQueueMetaName q.bytes))) := hr₁
  obtain rfl : r₂ = some (.integer (w.peer.2.list (getQueueMsgName q.bytes)).length) := hr₂
  have harray : ¬ checkReply (some (pairs (w.peer.2.hash (getQueueMetaName q.bytes)))) .array (-1)
    true ≠ 0 := fun h => h rfl
  have hinteger : ¬ checkReply (some (.integer (w.peer.2.list (getQueueMsgName q.bytes)).length))
    .integer (-1) true ≠ 0 := fun h => h rfl
  simp only [if_neg harray] at h
  rw [Talk.eval_getReply_unread _ hu] at h
  simp only [if_neg hinteger, Option.getD_none, getQueueValue_metaHash hm hc] at h
  have hread : Read w { w₁ with taken := w₁.taken + 1 } := by
    refine ⟨htaken, ?_, hmgr⟩
    show w₁.peer.2 = _
    rw [hpeer]
  split at h
  · next hty =>
    obtain ⟨w', he, hread'⟩ := loadSubscribers_returns clock uuid _ hread.idle
      (hread.store ▸ hst)
    rw [hread.store] at he
    exact ⟨_, w', h.symm.trans he, ⟨rfl, rfl, rfl, (if_pos hty).symm⟩, hread.trans hread'⟩
  · next hty => exact ⟨_, _, h.symm, ⟨rfl, rfl, rfl, (if_neg hty).symm⟩, hread⟩

/-- The loop goes through the members, and swaps in what it has read. -/
theorem loadLoop_returns (members : List Bytes) (tmp : CStr → Option Queue) (hw : w.Idle)
    (hst : Sane w.peer.2) (hsub : ∀ n ∈ members, n ∈ w.peer.2.members allQueueName)
    (hnodup : members.Nodup) (htmp : ∀ q : CStr, q.bytes ∈ members → tmp q = none) :
    ∃ table w', (loadLoop (members.map .string) tmp).eval (Talk.exec quiet clock uuid) w =
      some (0, w') ∧ w'.Idle ∧ w'.peer.2 = w.peer.2 ∧
      w'.mgr = { w.mgr with name2Queue := table } ∧
      (∀ q : CStr, q.bytes ∈ members →
        ∃ queue, table q = some queue ∧ LoadedFrom w.peer.2 q queue) ∧
      ∀ q : CStr, q.bytes ∉ members → table q = tmp q := by
  induction members generalizing tmp w with
  | nil => exact ⟨tmp, _, rfl, hw, rfl, rfl, fun q hq => (by cases hq), fun _ _ => rfl⟩
  | cons n members ih =>
    have hn : n ∈ w.peer.2.members allQueueName := hsub n List.mem_cons_self
    obtain ⟨q, rfl⟩ := hst.names n hn
    obtain ⟨hnot, hnodup⟩ := List.nodup_cons.mp hnodup
    obtain ⟨queue, w₁, he, hq, hread⟩ := loadQueue_returns clock uuid
      (htmp q List.mem_cons_self) hw hst.typed (hst.hashes q) (hst.complete q hn)
    rw [List.map_cons, loadLoop, Prog.eval_bind, he]
    obtain ⟨table, w', he', hidle, hstore, hmgr, hin, hout⟩ :=
      ih (Function.update tmp q (some queue)) hread.idle
        (hread.store ▸ hst) (hread.store ▸ fun n hn => hsub n (List.mem_cons_of_mem _ hn)) hnodup
        fun p hp => by
          rw [Function.update_of_ne (by rintro rfl; exact hnot hp)]
          exact htmp p (List.mem_cons_of_mem _ hp)
    refine ⟨table, w', ?_, hidle, hstore.trans hread.store, by rw [hmgr, hread.mgr], ?_, ?_⟩
    · rw [← CStr.ofBytes_bytes q] at he'
      exact he'
    · intro p hp
      by_cases hmem : p.bytes ∈ members
      · rw [← hread.store]
        exact hin p hmem
      · obtain rfl : p = q := CStr.bytes_inj.mp ((List.mem_cons.mp hp).resolve_right hmem)
        exact ⟨queue, by rw [hout p hmem, Function.update_self], hq⟩
    · intro p hp
      rw [List.mem_cons, not_or] at hp
      rw [hout p hp.2, Function.update_of_ne]
      rintro rfl
      exact hp.1 rfl

/-- **`LoadQueues` returns `0`** on a sane store, with every reply read and the table of the store
loaded. -/
theorem loadQueues_returns (hw : w.Idle) (hst : Sane w.peer.2) :
    ∃ table w', loadQueues.eval (Talk.exec quiet clock uuid) w = some (0, w') ∧ w'.Idle ∧
      w'.peer.2 = w.peer.2 ∧ w'.mgr = { w.mgr with name2Queue := table } ∧
      TableOf w.peer.2 table := by
  have hkeyed : WellKeyed (.smembers allQueueName) := by
    rintro k κ ⟨⟩
    exact kindOf_allQueueName
  generalize hx : loadQueues.eval (Talk.exec quiet clock uuid) w = x
  obtain ⟨r, w₁, hr, hidle, hmgr, -, h⟩ := hw.command hx
  rw [quiet_reading (fun _ => rfl)] at hr
  obtain ⟨hr, hpeer⟩ := Prod.mk.inj hr
  rw [Cmd.exec_reply (hst.typed.fits hkeyed)] at hr
  have hstore : w₁.peer.2 = w.peer.2 := by rw [hpeer]
  subst hr
  obtain ⟨table, w', he, hidle', hstore', hmgr', hin, hout⟩ := loadLoop_returns clock uuid
    (w.peer.2.members allQueueName) (fun _ => none) hidle
    (hstore ▸ hst) (hstore ▸ fun n hn => hn) hst.nodup fun _ _ => rfl
  rw [hstore] at hin hstore'
  exact ⟨table, w', h.symm.trans he, hidle', hstore', by rw [hmgr', hmgr], hin, hout⟩

end Returns

end Domq.Mq
