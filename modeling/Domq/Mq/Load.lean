import Domq.Mq.Talk
import Domq.Mq.LoadPipeline

/-!
# What `LoadQueues` loads

`LoadQueues` builds its table from dozens of replies by position, and swaps it in at the end. Here
the table is compared with the replies as they were given, each to its command: `Talk.log` is every
command with the reply to it, or with none where `GetReply` failed.

* `Describes`, `Clients`: what the replies to the commands for one member say about its queue. The
  relation `R` between a client and its field is equality of the bytes in what the table should be
  (`Entries`), and is cut at the first NUL, as a `char*` is, in what the code does (`Loads`).
* `Bad`: a reply that ends the call. `loadQueues_eval`: the call returns something else than `0`
  exactly when some reply is bad, and then changes nothing; otherwise the table is loaded.
* `AllOrNothing` is what the table should be, and `allOrNothing_iff` says exactly when it is: when
  no name of a queue or of a client has a NUL byte in it, or the call fails.
-/

namespace Domq.Mq

open Domq.Lib Domq.Redis

/-! ## Replies -/

/-- A command of the log, with the reply to it; `none` when it could not be read. -/
abbrev Answer := Cmd × Option Reply

/-- The fields of an `HGETALL` reply. -/
def fieldsOf : List Reply → List Reply
  | field :: _ :: rest => field :: fieldsOf rest
  | _ => []

/-- The key of a hash of subscribers. -/
def IsSubKey (key : Bytes) : Prop := (ascii "__meta_sub_").isPrefixOf key

instance (key : Bytes) : Decidable (IsSubKey key) := inferInstanceAs (Decidable (_ = true))

/-- Redis answers `SMEMBERS` with distinct strings and `HGETALL` with pairs of strings, when it
answers with an array. -/
def Formed : Answer → Prop
  | (.smembers _, some (.array es)) => ∃ l : List Bytes, es = l.map .string ∧ l.Nodup
  | (.hgetall _, some (.array es)) => ∃ h, .array es = pairs h
  | _ => True

/-- A reply that ends the call: a wrong type, or metadata that is not complete. -/
def Bad : Answer → Prop
  | (_, none) => True
  | (.smembers _, some r) => r.type ≠ .array ∧ r.type ≠ .nil
  | (.hgetall key, some r) =>
    if IsSubKey key then r.type ≠ .array ∧ r.type ≠ .nil
    else r.type ≠ .array ∨ getQueueValue Queue.empty r = none
  | (.llen _, some r) => r.type ≠ .integer
  | _ => False

/-- No name of a queue or of a client has a NUL byte in it. -/
def Clean : Answer → Prop
  | (.smembers _, some r) => ∀ x ∈ r.elements, 0 ∉ x.str
  | (.hgetall key, some r) => IsSubKey key → ∀ x ∈ fieldsOf r.elements, 0 ∉ x.str
  | _ => True

/-! ## What the replies say -/

/-- The clients of a queue: the fields of the hash in order, each with its own value and its own
length. -/
inductive Clients (R : CStr → Bytes → Prop) (name : Bytes) :
    List Reply → List Answer → List SubQueue → Prop
  | nil : Clients R name [] [] []
  | cons {field value : Reply} {es : List Reply} {lens : List Answer} {subs : List SubQueue}
      {client : CStr} {n : Int} (hc : R client field.str) (h : Clients R name es lens subs) :
      Clients R name (field :: value :: es)
        ((.llen (cStr (getQueueSubName name client.bytes)), some (.integer n)) :: lens)
        (⟨client, toSize n, atol value.str⟩ :: subs)

/-- The queue of one member: `GetQueueValue` of its hash, the length of its list and, when it is a
`SUB2PUB` queue, its clients. -/
inductive Describes (R : CStr → Bytes → Prop) (start : Queue) (member : Bytes) :
    List Answer → Queue → Prop
  | plain {h : Reply} {n : Int} {queue : Queue} (hq : getQueueValue start h = some queue)
      (hty : queue.option.msgType ≠ SUB2PUB) :
      Describes R start member
        [(.hgetall (cStr (getQueueMetaName member)), some h),
         (.llen (cStr (getQueueMsgName member)), some (.integer n))]
        ⟨queue.option, toSize n, queue.lastVisit, start.clients⟩
  | unsubscribed {h : Reply} {n : Int} {queue : Queue} (hq : getQueueValue start h = some queue)
      (hty : queue.option.msgType = SUB2PUB) :
      Describes R start member
        [(.hgetall (cStr (getQueueMetaName member)), some h),
         (.llen (cStr (getQueueMsgName member)), some (.integer n)),
         (.hgetall (cStr (getSubQueueMetaName queue.option.msgQueueName)), some .nil)]
        ⟨queue.option, toSize n, queue.lastVisit, start.clients⟩
  | subscribed {h : Reply} {n : Int} {queue : Queue} {es : List Reply} {lens : List Answer}
      {subs : List SubQueue} (hq : getQueueValue start h = some queue)
      (hty : queue.option.msgType = SUB2PUB)
      (hc : Clients R queue.option.msgQueueName es lens subs) :
      Describes R start member
        ((.hgetall (cStr (getQueueMetaName member)), some h) ::
         (.llen (cStr (getQueueMsgName member)), some (.integer n)) ::
         (.hgetall (cStr (getSubQueueMetaName queue.option.msgQueueName)), some (.array es)) ::
         lens)
        ⟨queue.option, toSize n, queue.lastVisit, subs⟩

/-- The queues of the members, each from the replies to its own commands. -/
inductive Entries : List Bytes → List Answer → List Queue → Prop
  | nil : Entries [] [] []
  | cons {member : Bytes} {members : List Bytes} {seg log : List Answer} {queue : Queue}
      {queues : List Queue} (h : Describes (fun c f => c.bytes = f) Queue.empty member seg queue)
      (hrest : Entries members log queues) :
      Entries (member :: members) (seg ++ log) (queue :: queues)

/-- The table the code builds: names and clients are cut at the first NUL, and a name that comes
again is read over what it has. -/
inductive Loads : (tmp : CStr → Option Queue) → List Bytes → List Answer →
    (table : CStr → Option Queue) → Prop
  | nil {tmp : CStr → Option Queue} : Loads tmp [] [] tmp
  | cons {tmp table : CStr → Option Queue} {member : Bytes} {members : List Bytes}
      {seg log : List Answer} {queue : Queue}
      (h : Describes (fun c f => c = CStr.ofBytes f)
        ((tmp (CStr.ofBytes member)).getD Queue.empty) member seg queue)
      (hrest : Loads (Function.update tmp (CStr.ofBytes member) (some queue)) members log table) :
      Loads tmp (member :: members) (seg ++ log) table

/-- The table has one entry for each member, its own. -/
structure Tables (members : List Bytes) (queues : List Queue) (table : CStr → Option Queue) :
    Prop where
  all : ∀ p ∈ members.zip queues, ∃ name : CStr, name.bytes = p.1 ∧ table name = some p.2
  only : ∀ name queue, table name = some queue → (name.bytes, queue) ∈ members.zip queues

/-- **All or nothing.** A call that fails, or finds no set of names, leaves the table as it was; any
other leaves one entry for each member of the set, as the replies describe it. -/
def AllOrNothing {π : Type} (m : QueueMgr) (ret : Int) (w : Talk π) : Prop :=
  ((ret ≠ 0 ∨ ∃ c, w.log.head? = some (c, some .nil)) → w.mgr.name2Queue = m.name2Queue) ∧
  (ret = 0 → (∀ c, w.log.head? ≠ some (c, some .nil)) → ∃ members log queues,
    w.log = (.smembers allQueueName, some (.array (members.map .string))) :: log ∧
    Entries members log queues ∧ Tables members queues w.mgr.name2Queue)

/-! ## `GetQueueValue` -/

/-- The fields it recognises do not depend on the queue it starts from, and it keeps what it does
not read. -/
theorem getQueueValueLoop_start (es : List Reply) (queue queue' : Queue) (count : Nat) :
    (getQueueValueLoop es queue count).2 = (getQueueValueLoop es queue' count).2 ∧
      (getQueueValueLoop es queue count).1.clients = queue.clients := by
  induction es using List.twoStepInduction generalizing queue queue' count with
  | nil => exact ⟨rfl, rfl⟩
  | singleton x => exact ⟨rfl, rfl⟩
  | cons_cons cur next rest ih _ =>
    unfold getQueueValueLoop
    simp only
    split
    · exact ih _ _ _
    · split
      · exact ih _ _ _
      · split
        · exact ih _ _ _
        · split
          · exact ih _ _ _
          · split
            · exact ih _ _ _
            · exact ih _ _ _

theorem getQueueValue_clients {start queue : Queue} {h : Reply}
    (hq : getQueueValue start h = some queue) : queue.clients = start.clients := by
  have hc := (getQueueValueLoop_start h.elements start start 0).2
  unfold getQueueValue at hq
  simp only at hq
  split at hq
  · cases hq
  · cases hq
    exact hc

theorem getQueueValue_eq_none (start : Queue) {h : Reply} :
    getQueueValue start h = none ↔ getQueueValue Queue.empty h = none := by
  unfold getQueueValue
  simp only
  rw [(getQueueValueLoop_start h.elements start Queue.empty 0).1]
  split
  · exact Iff.rfl
  · exact ⟨fun h => (by cases h), fun h => (by cases h)⟩

/-! ## Keys -/

theorem cStr_getQueueMetaName (member : Bytes) :
    getQueueMetaName (CStr.ofBytes member).bytes = cStr (getQueueMetaName member) := by
  unfold getQueueMetaName
  rw [cStr_append (by decide)]
  rfl

theorem cStr_getQueueMsgName (member : Bytes) :
    getQueueMsgName (CStr.ofBytes member).bytes = cStr (getQueueMsgName member) := by
  unfold getQueueMsgName
  rw [cStr_append (by decide)]
  rfl

theorem isSubKey_sub (name : Bytes) : IsSubKey (cStr (getSubQueueMetaName name)) := by
  unfold getSubQueueMetaName
  rw [cStr_append (by decide)]
  rfl

theorem not_isSubKey_meta (member : Bytes) : ¬ IsSubKey (cStr (getQueueMetaName member)) := by
  unfold getQueueMetaName
  rw [cStr_append (by decide)]
  intro h
  exact Bool.noConfusion h

theorem bad_sub_iff (name : Bytes) (r : Reply) :
    Bad (.hgetall (cStr (getSubQueueMetaName name)), some r) ↔ r.type ≠ .array ∧ r.type ≠ .nil := by
  rw [Bad, if_pos (isSubKey_sub name)]

theorem bad_meta_iff (start : Queue) (member : Bytes) (r : Reply) :
    Bad (.hgetall (cStr (getQueueMetaName member)), some r) ↔
      r.type ≠ .array ∨ getQueueValue start r = none := by
  rw [Bad, if_neg (not_isSubKey_meta member), getQueueValue_eq_none start]

/-! ## The subscribers -/

section Eval

variable {π : Type} {P : Peer π} {clock : Nat → Nat} {uuid : Uuid}

/-- Subscribers with the lengths of their lists. -/
inductive Counted (name : Bytes) : List SubQueue → List Answer → List SubQueue → Prop
  | nil : Counted name [] [] []
  | cons {sub : SubQueue} {subs subs' : List SubQueue} {lens : List Answer} (n : Int)
      (h : Counted name subs lens subs') :
      Counted name (sub :: subs)
        ((.llen (cStr (getQueueSubName name sub.client.bytes)), some (.integer n)) :: lens)
        ({ sub with msgCount := toSize n } :: subs')

theorem drainSelf_readsOnly (size fuel i : Nat) : ReadsOnly (drainSelf size fuel i) := by
  induction fuel generalizing i with
  | zero => exact trivial
  | succ fuel ih =>
    rw [drainSelf]
    split
    · refine .getReply fun r => ?_
      cases r with
      | none => exact trivial
      | some r => exact ih (i + 1)
    · exact trivial

/-- The lengths: they are all integers, or some reply is bad and the call fails. -/
theorem loadCounts_eval {name : Bytes} {size : Nat} {subs : List SubQueue} {lens : List Answer}
    {w w' : Talk π} {res : Except Int (List SubQueue)} (hu : w.unread = lens)
    (hlens : lens.map Prod.fst = subs.map fun sub =>
      .llen (cStr (getQueueSubName name sub.client.bytes)))
    (h : (loadCounts size subs).eval (Talk.exec P clock uuid) w = some (res, w')) :
    w'.log = w.log ∧ w'.mgr = w.mgr ∧
      match res with
      | .error ret => ret ≠ 0 ∧ ∃ e ∈ lens, Bad e
      | .ok subs' => w'.taken = w.taken + subs.length ∧ (∀ e ∈ lens, ¬ Bad e) ∧
        Counted name subs lens subs' := by
  induction subs generalizing w w' lens res with
  | nil =>
    rw [List.map_nil, List.map_eq_nil_iff] at hlens
    subst hlens
    cases h
    exact ⟨rfl, rfl, rfl, by simp, .nil⟩
  | cons sub rest ih =>
    cases lens with
    | nil => cases hlens
    | cons e lens =>
      obtain ⟨c, o⟩ := e
      obtain ⟨rfl, hrest⟩ : c = _ ∧ _ := List.cons.inj hlens
      rw [loadCounts, Talk.eval_getReply_unread _ hu] at h
      cases o with
      | none =>
        cases h
        exact ⟨rfl, rfl, by decide, _, List.mem_cons_self, trivial⟩
      | some r =>
        by_cases hr : r.type = .integer
        · obtain ⟨n, rfl⟩ := Reply.exists_integer hr
          simp only [if_neg (fun h => (checkReply_integer _).mp h hr)] at h
          rw [Prog.eval_bind] at h
          obtain ⟨⟨res₁, w₁⟩, he, h⟩ := Option.bind_eq_some_iff.mp h
          obtain ⟨hlog, hmgr, hres⟩ := ih (Talk.unread_take hu) hrest he
          cases res₁ with
          | error ret =>
            cases h
            obtain ⟨hne, e, he', hbad⟩ := hres
            exact ⟨hlog, hmgr, hne, e, List.mem_cons_of_mem _ he', hbad⟩
          | ok subs' =>
            cases h
            obtain ⟨htaken, hgood, hcount⟩ := hres
            refine ⟨hlog, hmgr, ?_, ?_, .cons n hcount⟩
            · rw [htaken, List.length_cons]
              simp only
              omega
            · intro e he'
              rcases List.mem_cons.mp he' with rfl | he'
              · exact fun hbad => hbad rfl
              · exact hgood e he'
        · have hne := (checkReply_integer r).mpr hr
          simp only [if_pos hne] at h
          have hreads : ReadsOnly (do
              if 0 < rest.length then drainSelf size size 0
              return (Except.error (checkReply (some r) .integer (-1) true) :
                Except Int (List SubQueue))) := by
            split
            · exact (drainSelf_readsOnly _ _ _).bind fun _ => trivial
            · exact trivial
          obtain ⟨hmgr, -, hlog⟩ := hreads.eval h
          have hres : res = .error (checkReply (some r) .integer (-1) true) := by
            split at h
            · rw [Prog.eval_bind] at h
              obtain ⟨⟨⟨⟩, w₁⟩, -, he⟩ := Option.bind_eq_some_iff.mp h
              cases he
              rfl
            · cases h
              rfl
          subst hres
          exact ⟨hlog, hmgr, hne, _, List.mem_cons_self, hr⟩

/-- The clients of the hash, each with its own length. -/
theorem clients_of_counted {name : Bytes} (h : List (Bytes × Bytes)) {subs subs' : List SubQueue}
    {lens : List Answer} (hl : loadClients (pairs h).elements = .ok subs)
    (hc : Counted name subs lens subs') :
    Clients (fun c f => c = CStr.ofBytes f) name (pairs h).elements lens subs' := by
  induction h generalizing subs subs' lens with
  | nil =>
    cases hl
    cases hc
    exact .nil
  | cons fv h ih =>
    have hel : (pairs (fv :: h)).elements =
        .string fv.1 :: .string fv.2 :: (pairs h).elements := rfl
    rw [hel, loadClients] at hl
    simp only [checkReply, Reply.type, reduceCtorEq, and_false, if_false, ne_eq, not_true_eq_false,
      not_false_eq_true, and_self] at hl
    cases hrest : loadClients (pairs h).elements with
    | error ret =>
      rw [hrest] at hl
      cases hl
    | ok subs₁ =>
      rw [hrest] at hl
      cases hl
      cases hc with
      | cons n hc =>
        rw [hel]
        have hfield : CStr.ofBytes fv.1 = CStr.ofBytes (Reply.string fv.1).str := rfl
        exact @Clients.cons _ _ _ (.string fv.2) _ _ _ _ n hfield (ih hrest hc)

theorem loadSubscribers_eval {queue : Queue} {w w' : Talk π} {res : Except Int Queue} (hw : w.Idle)
    (hf : ∀ e ∈ w'.log, Formed e)
    (h : (loadSubscribers queue).eval (Talk.exec P clock uuid) w = some (res, w')) :
    ∃ r seg, w'.mgr = w.mgr ∧
      w'.log = w.log ++
        (.hgetall (cStr (getSubQueueMetaName queue.option.msgQueueName)), r) :: seg ∧
      match res with
      | .error ret => ret ≠ 0 ∧
        ∃ e ∈ (.hgetall (cStr (getSubQueueMetaName queue.option.msgQueueName)), r) :: seg, Bad e
      | .ok queue' => w'.Idle ∧
        (∀ e ∈ (.hgetall (cStr (getSubQueueMetaName queue.option.msgQueueName)), r) :: seg,
          ¬ Bad e) ∧
        (r = some .nil ∧ seg = [] ∧ queue' = queue ∨
          ∃ es subs, r = some (.array es) ∧ queue' = { queue with clients := subs } ∧
            Clients (fun c f => c = CStr.ofBytes f) queue.option.msgQueueName es seg subs) := by
  have hbad := bad_sub_iff queue.option.msgQueueName
  obtain ⟨r, w₁, -, hidle, hmgr, hlog, h⟩ := hw.ask h
  generalize cStr (getSubQueueMetaName queue.option.msgQueueName) = key at *
  refine ⟨r, ?_⟩
  cases r with
  | none =>
    cases h
    exact ⟨[], hmgr, hlog, by decide, _, List.mem_cons_self, trivial⟩
  | some r =>
    cases r with
    | nil =>
      cases h
      refine ⟨[], hmgr, hlog, hidle, ?_, .inl ⟨rfl, rfl, rfl⟩⟩
      intro e he
      rw [List.mem_singleton.mp he, hbad]
      exact fun h => h.2 rfl
    | array es =>
      simp only [checkReply, Reply.type, Reply.elements, reduceCtorEq, and_false, if_false, ne_eq,
        not_true_eq_false] at h
      cases hl : loadClients es with
      | error ret =>
        rw [hl] at h
        cases h
        -- pairs of strings are always read
        obtain ⟨hash, hes⟩ := hf (.hgetall key, some (.array es)) (by
          rw [hlog]
          simp)
        have hok := loadClients_pairs hash
        rw [← hes] at hok
        cases hl.symm.trans hok
      | ok clients =>
        rw [hl] at h
        obtain ⟨lens, w₂, -, -, hfst, hu, hmgr₂, htaken₂, hlog₂, h⟩ := hidle.appendAll h
        rw [Prog.eval_bind] at h
        obtain ⟨⟨res₁, w₃⟩, he, h⟩ := Option.bind_eq_some_iff.mp h
        obtain ⟨hlog₃, hmgr₃, hres⟩ := loadCounts_eval hu hfst he
        have hlog' : w₃.log = w.log ++ (.hgetall key, some (.array es)) :: lens := by
          rw [hlog₃, hlog₂, hlog, List.append_assoc]
          rfl
        have hmgr' : w₃.mgr = w.mgr := hmgr₃.trans (hmgr₂.trans hmgr)
        refine ⟨lens, ?_⟩
        cases res₁ with
        | error ret =>
          cases h
          obtain ⟨hne, e, hmem, he⟩ := hres
          exact ⟨hmgr', hlog', hne, e, List.mem_cons_of_mem _ hmem, he⟩
        | ok subs =>
          cases h
          obtain ⟨htaken, hgood, hcount⟩ := hres
          refine ⟨hmgr', hlog', ?_, ?_, .inr ⟨es, subs, rfl, rfl, ?_⟩⟩
          · show w₃.taken = w₃.log.length
            rw [List.length_map] at htaken₂
            rw [htaken, hlog₃, htaken₂]
          · intro e he'
            rcases List.mem_cons.mp he' with rfl | he'
            · rw [hbad]
              exact fun h => h.1 rfl
            · exact hgood e he'
          · obtain ⟨hash, hes⟩ := hf (.hgetall key, some (.array es)) (by
              rw [hlog']
              simp)
            have hel : es = (pairs hash).elements := by rw [← hes]; rfl
            subst hel
            exact clients_of_counted hash hl hcount
    | _ =>
      cases h
      refine ⟨[], hmgr, hlog, by simp [checkReply, Reply.type], _, List.mem_cons_self, ?_⟩
      rw [hbad]
      simp [Reply.type]

/-- A `SUB2PUB` queue with what `LoadQueues` has read of its subscribers. -/
theorem describes_sub {start queue queue' : Queue} {member : Bytes} {h : Reply} {n : Int}
    {r : Option Reply} {seg : List Answer} (hq : getQueueValue start h = some queue)
    (hty : queue.option.msgType = SUB2PUB)
    (hcases : r = some .nil ∧ seg = [] ∧ queue' = { queue with msgCount := toSize n } ∨
      ∃ es subs, r = some (.array es) ∧
        queue' = { queue with msgCount := toSize n, clients := subs } ∧
        Clients (fun c f => c = CStr.ofBytes f) queue.option.msgQueueName es seg subs) :
    Describes (fun c f => c = CStr.ofBytes f) start member
      ((.hgetall (cStr (getQueueMetaName member)), some h) ::
       (.llen (cStr (getQueueMsgName member)), some (.integer n)) ::
       (.hgetall (cStr (getSubQueueMetaName queue.option.msgQueueName)), r) :: seg) queue' := by
  rcases hcases with ⟨rfl, rfl, rfl⟩ | ⟨es, subs, rfl, rfl, hc⟩
  · have hd : Describes (fun c f => c = CStr.ofBytes f) start member _ _ :=
      .unsubscribed (n := n) hq hty
    rw [← getQueueValue_clients hq] at hd
    exact hd
  · exact .subscribed hq hty hc

/-- One turn: the replies describe the queue, or one of them is bad and the call fails. -/
theorem loadQueue_eval {tmp : CStr → Option Queue} {member : Bytes} {w w' : Talk π}
    {res : Except Int Queue} (hw : w.Idle) (hf : ∀ e ∈ w'.log, Formed e)
    (h : (loadQueue tmp (.string member)).eval (Talk.exec P clock uuid) w = some (res, w')) :
    ∃ seg, w'.mgr = w.mgr ∧ w'.log = w.log ++ seg ∧
      match res with
      | .error ret => ret ≠ 0 ∧ ∃ e ∈ seg, Bad e
      | .ok queue => w'.Idle ∧ (∀ e ∈ seg, ¬ Bad e) ∧
        Describes (fun c f => c = CStr.ofBytes f)
          ((tmp (CStr.ofBytes member)).getD Queue.empty) member seg queue := by
  have hmeta := bad_meta_iff ((tmp (CStr.ofBytes member)).getD Queue.empty) member
  have hstr : ¬ checkReply (some (.string member)) .string (-1) true ≠ 0 := fun h => h rfl
  unfold loadQueue at h
  simp only [if_neg hstr, Reply.str] at h
  rw [cStr_getQueueMetaName, cStr_getQueueMsgName] at h
  obtain ⟨r₁, r₂, w₁, -, -, hu, hmgr, htaken, hlog, h⟩ := hw.askTwo h
  cases r₁ with
  | none =>
    cases h
    exact ⟨_, hmgr, hlog, by decide, _, List.mem_cons_self, trivial⟩
  | some r₁ =>
    by_cases h₁ : r₁.type = .array
    · simp only [if_neg (fun h => (checkReply_ne_zero (by decide)).mp h h₁)] at h
      rw [Talk.eval_getReply_unread _ hu] at h
      cases r₂ with
      | none =>
        cases h
        exact ⟨_, hmgr, hlog, by decide, _, List.mem_cons_of_mem _ List.mem_cons_self, trivial⟩
      | some r₂ =>
        by_cases h₂ : r₂.type = .integer
        · simp only [if_neg (fun h => (checkReply_ne_zero (by decide)).mp h h₂)] at h
          obtain ⟨n, rfl⟩ := Reply.exists_integer h₂
          cases hq : getQueueValue ((tmp (CStr.ofBytes member)).getD Queue.empty) r₁ with
          | none =>
            rw [hq] at h
            cases h
            exact ⟨_, hmgr, hlog, by decide, _, List.mem_cons_self, (hmeta r₁).mpr (.inr hq)⟩
          | some queue =>
            rw [hq] at h
            have hok : ¬ Bad (.hgetall (cStr (getQueueMetaName member)), some r₁) := by
              rw [hmeta r₁, hq]
              exact fun hbad => hbad.elim (fun hne => hne h₁) fun hnone => by cases hnone
            have hclients := getQueueValue_clients hq
            have hgood : ∀ e ∈ [(Cmd.hgetall (cStr (getQueueMetaName member)), some r₁),
                (Cmd.llen (cStr (getQueueMsgName member)), some (Reply.integer n))], ¬ Bad e := by
              simp only [List.forall_mem_cons]
              exact ⟨hok, fun hbad => hbad rfl, by simp⟩
            by_cases hty : queue.option.msgType = SUB2PUB
            · simp only [if_pos hty] at h
              have hidle : Talk.Idle { w₁ with taken := w₁.taken + 1 } := htaken
              obtain ⟨r, seg, hmgr', hlog', hres⟩ := loadSubscribers_eval hidle hf h
              have hlog₁ : ({ w₁ with taken := w₁.taken + 1 } : Talk π).log = _ := hlog
              rw [hlog₁, List.append_assoc] at hlog'
              refine ⟨_, hmgr'.trans hmgr, hlog', ?_⟩
              cases res with
              | error ret =>
                obtain ⟨hne, e, he, hbad⟩ := hres
                exact ⟨hne, e, List.mem_append_right _ he, hbad⟩
              | ok queue' =>
                obtain ⟨hidle, hgood', hcases⟩ := hres
                refine ⟨hidle, fun e he => ?_, ?_⟩
                · rcases List.mem_append.mp he with he | he
                  · exact hgood e he
                  · exact hgood' e he
                · exact @describes_sub _ queue _ _ _ n _ _ hq hty hcases
            · simp only [if_neg hty] at h
              cases h
              have hd : Describes (fun c f => c = CStr.ofBytes f) _ member _ _ :=
                .plain (n := n) hq hty
              rw [← hclients] at hd
              exact ⟨_, hmgr, hlog, htaken, hgood, hd⟩
        · have hne : checkReply (some r₂) .integer (-1) true ≠ 0 :=
            (checkReply_ne_zero (by decide)).mpr h₂
          simp only [if_pos hne] at h
          cases h
          exact ⟨_, hmgr, hlog, hne, _, List.mem_cons_of_mem _ List.mem_cons_self, h₂⟩
    · -- the second reply is drained
      have hne : checkReply (some r₁) .array (-1) true ≠ 0 :=
        (checkReply_ne_zero (by decide)).mpr h₁
      simp only [if_pos hne] at h
      rw [drain_one, Talk.eval_getReply_unread _ hu] at h
      cases h
      exact ⟨_, hmgr, hlog, hne, _, List.mem_cons_self, (hmeta r₁).mpr (.inl h₁)⟩

/-- The loop: it goes through the members, or some reply is bad and the call fails. -/
theorem loadLoop_eval {members : List Bytes} {tmp : CStr → Option Queue} {w w' : Talk π} {ret : Int}
    (hw : w.Idle) (hf : ∀ e ∈ w'.log, Formed e)
    (h : (loadLoop (members.map .string) tmp).eval (Talk.exec P clock uuid) w = some (ret, w')) :
    ∃ log, w'.log = w.log ++ log ∧
      (ret ≠ 0 ∧ w'.mgr = w.mgr ∧ (∃ e ∈ log, Bad e) ∨
        ret = 0 ∧ (∀ e ∈ log, ¬ Bad e) ∧ ∃ table, w'.mgr.name2Queue = table ∧
          Loads tmp members log table) := by
  induction members generalizing tmp w with
  | nil =>
    cases h
    exact ⟨[], (List.append_nil _).symm, .inr ⟨rfl, by simp, _, rfl, .nil⟩⟩
  | cons member members ih =>
    rw [List.map_cons, loadLoop, Prog.eval_bind] at h
    obtain ⟨⟨res, w₁⟩, he, h⟩ := Option.bind_eq_some_iff.mp h
    have hf₁ : ∀ e ∈ w₁.log, Formed e := fun e he' => hf e ((Talk.log_prefix h).subset he')
    obtain ⟨seg, hmgr, hlog, hres⟩ := loadQueue_eval hw hf₁ he
    cases res with
    | error ret' =>
      cases h
      exact ⟨seg, hlog, .inl ⟨hres.1, hmgr, hres.2⟩⟩
    | ok queue =>
      obtain ⟨hidle, hgood, hd⟩ := hres
      obtain ⟨log, hlog', hcases⟩ := ih hidle h
      rw [hlog, List.append_assoc] at hlog'
      refine ⟨seg ++ log, hlog', ?_⟩
      rcases hcases with ⟨hne, hmgr', e, he', hbad⟩ | ⟨h0, hgood', table, htable, hloads⟩
      · exact .inl ⟨hne, hmgr'.trans hmgr, e, List.mem_append_right seg he', hbad⟩
      · refine .inr ⟨h0, fun e he' => ?_, table, htable, .cons hd hloads⟩
        rcases List.mem_append.mp he' with he' | he'
        · exact hgood e he'
        · exact hgood' e he'

/-- **`LoadQueues` on any replies.** It fails, some reply being bad, and changes nothing; or there
is no set of names, and it changes nothing; or no reply is bad, and it loads the table. -/
theorem loadQueues_eval {m : QueueMgr} {s : π} {w : Talk π} {ret : Int}
    (hf : ∀ e ∈ w.log, Formed e)
    (h : loadQueues.eval (Talk.exec P clock uuid) (.idle m s) = some (ret, w)) :
    (ret ≠ 0 ∧ w.mgr.name2Queue = m.name2Queue ∧ ∃ e ∈ w.log, Bad e) ∨
    (ret = 0 ∧ w.mgr.name2Queue = m.name2Queue ∧ w.log = [(.smembers allQueueName, some .nil)]) ∨
    (ret = 0 ∧ (∀ e ∈ w.log, ¬ Bad e) ∧ ∃ members log table, members.Nodup ∧
      w.log = (.smembers allQueueName, some (.array (members.map .string))) :: log ∧
      w.mgr.name2Queue = table ∧ Loads (fun _ => none) members log table) := by
  have hidle : Talk.Idle (.idle m s) := rfl
  obtain ⟨r, w₁, -, hidle₁, hmgr, hlog, h⟩ := hidle.command h
  have hlog₁ : w₁.log = [(.smembers allQueueName, r)] := hlog
  have hmgr₁ : w₁.mgr = m := hmgr
  cases r with
  | none =>
    cases h
    exact .inl ⟨by decide, by rw [hmgr₁], (.smembers allQueueName, none),
      by rw [hlog₁]; exact List.mem_singleton_self _, trivial⟩
  | some r =>
    cases r with
    | nil =>
      cases h
      exact .inr (.inl ⟨rfl, by rw [hmgr₁], hlog₁⟩)
    | array es =>
      have hmem : (Cmd.smembers allQueueName, some (Reply.array es)) ∈ w.log :=
        (Talk.log_prefix h).subset (by rw [hlog₁]; exact List.mem_singleton_self _)
      obtain ⟨members, rfl, hnodup⟩ := hf _ hmem
      obtain ⟨log, hlog', hcases⟩ := loadLoop_eval hidle₁ hf h
      rw [hlog₁] at hlog'
      rcases hcases with ⟨hne, hmgr', e, he, hbad⟩ | ⟨h0, hgood, table, htable, hloads⟩
      · refine .inl ⟨hne, by rw [hmgr', hmgr₁], e, ?_, hbad⟩
        rw [hlog']
        exact List.mem_append_right _ he
      · refine .inr (.inr ⟨h0, fun e he => ?_, members, log, table, hnodup, hlog', htable, hloads⟩)
        rw [hlog'] at he
        rcases List.mem_append.mp he with he | he
        · rw [List.mem_singleton.mp he]
          exact fun hbad => hbad.1 rfl
        · exact hgood e he
    | _ =>
      cases h
      exact .inl ⟨by simp [checkReply, Reply.type], by rw [hmgr₁], _,
        by rw [hlog₁]; exact List.mem_singleton_self _, by simp [Bad, Reply.type]⟩

end Eval

/-! ## Names without NUL bytes -/

theorem bytes_ofBytes {s : Bytes} (h : 0 ∉ s) : (CStr.ofBytes s).bytes = s := by
  show s.takeWhile (fun b => b ≠ 0) = s
  rw [List.takeWhile_eq_self_iff]
  intro b hb
  simp only [decide_eq_true_eq]
  rintro rfl
  exact h hb

theorem CStr.zero_notMem (c : CStr) : 0 ∉ c.bytes := fun h => c.noNul 0 h rfl

theorem Clients.clean {name : Bytes} {es : List Reply} {lens : List Answer} {subs : List SubQueue}
    (h : Clients (fun c f => c.bytes = f) name es lens subs) :
    (∀ x ∈ fieldsOf es, 0 ∉ x.str) ∧ ∀ e ∈ lens, Clean e := by
  induction h with
  | nil => exact ⟨fun x hx => (by cases hx), fun e he => (by cases he)⟩
  | @cons field value es lens subs client n hc h ih =>
    constructor
    · intro x hx
      rcases List.mem_cons.mp hx with rfl | hx
      · rw [← hc]
        exact CStr.zero_notMem client
      · exact ih.1 x hx
    · intro e he
      rcases List.mem_cons.mp he with rfl | he
      · exact trivial
      · exact ih.2 e he

theorem Clients.of_clean {name : Bytes} {es : List Reply} {lens : List Answer}
    {subs : List SubQueue} (h : Clients (fun c f => c = CStr.ofBytes f) name es lens subs)
    (hes : ∀ x ∈ fieldsOf es, 0 ∉ x.str) : Clients (fun c f => c.bytes = f) name es lens subs := by
  induction h with
  | nil => exact .nil
  | @cons field value es lens subs client n hc h ih =>
    refine .cons ?_ (ih fun x hx => hes x (List.mem_cons_of_mem _ hx))
    rw [hc]
    exact bytes_ofBytes (hes field List.mem_cons_self)

theorem clean_meta (member : Bytes) (r : Option Reply) :
    Clean (.hgetall (cStr (getQueueMetaName member)), r) := by
  cases r with
  | none => exact trivial
  | some r => exact fun hsub => absurd hsub (not_isSubKey_meta member)

theorem Describes.clean {start : Queue} {member : Bytes} {seg : List Answer} {queue : Queue}
    (h : Describes (fun c f => c.bytes = f) start member seg queue) : ∀ e ∈ seg, Clean e := by
  cases h with
  | plain hq hty =>
    simp only [List.forall_mem_cons]
    exact ⟨clean_meta _ _, trivial, by simp⟩
  | unsubscribed hq hty =>
    simp only [List.forall_mem_cons]
    exact ⟨clean_meta _ _, trivial, fun _ x hx => (by cases hx), by simp⟩
  | subscribed hq hty hc =>
    simp only [List.forall_mem_cons]
    exact ⟨clean_meta _ _, trivial, fun _ => hc.clean.1, hc.clean.2⟩

theorem Describes.of_clean {start : Queue} {member : Bytes} {seg : List Answer} {queue : Queue}
    (h : Describes (fun c f => c = CStr.ofBytes f) start member seg queue)
    (hseg : ∀ e ∈ seg, Clean e) : Describes (fun c f => c.bytes = f) start member seg queue := by
  cases h with
  | plain hq hty => exact .plain hq hty
  | unsubscribed hq hty => exact .unsubscribed hq hty
  | @subscribed h n queue es lens subs hq hty hc =>
    have hsub : Clean (.hgetall (cStr (getSubQueueMetaName queue.option.msgQueueName)),
      some (.array es)) := hseg _ (by simp)
    exact .subscribed hq hty (hc.of_clean (hsub (isSubKey_sub _)))

theorem Entries.clean {members : List Bytes} {log : List Answer} {queues : List Queue}
    (h : Entries members log queues) :
    queues.length = members.length ∧ ∀ e ∈ log, Clean e := by
  induction h with
  | nil => exact ⟨rfl, fun e he => (by cases he)⟩
  | cons h hrest ih =>
    refine ⟨congrArg Nat.succ ih.1, fun e he => ?_⟩
    rcases List.mem_append.mp he with he | he
    · exact h.clean e he
    · exact ih.2 e he

/-- With distinct names and no NUL bytes, what the code loads is what it should load. -/
theorem Loads.entries {tmp table : CStr → Option Queue} {members : List Bytes} {log : List Answer}
    (h : Loads tmp members log table) (hlog : ∀ e ∈ log, Clean e) (hnul : ∀ n ∈ members, 0 ∉ n)
    (hnodup : members.Nodup) (htmp : ∀ n ∈ members, tmp (CStr.ofBytes n) = none) :
    ∃ queues, Entries members log queues ∧
      (∀ p ∈ members.zip queues, table (CStr.ofBytes p.1) = some p.2) ∧
      ∀ name : CStr, name.bytes ∉ members → table name = tmp name := by
  induction h with
  | nil => exact ⟨[], .nil, fun p hp => (by cases hp), fun _ _ => rfl⟩
  | @cons tmp table member members seg log queue h hrest ih =>
    obtain ⟨hnot, hnodup⟩ := List.nodup_cons.mp hnodup
    have hfresh : tmp (CStr.ofBytes member) = none := htmp member List.mem_cons_self
    have hmember := bytes_ofBytes (hnul member List.mem_cons_self)
    have hne : ∀ n ∈ members, CStr.ofBytes n ≠ CStr.ofBytes member := by
      intro n hn heq
      have hb := congrArg CStr.bytes heq
      rw [hmember, bytes_ofBytes (hnul n (List.mem_cons_of_mem _ hn))] at hb
      exact hnot (hb ▸ hn)
    obtain ⟨queues, hentries, hall, hframe⟩ :=
      ih (fun e he => hlog e (List.mem_append_right seg he))
        (fun n hn => hnul n (List.mem_cons_of_mem _ hn)) hnodup (fun n hn => by
          rw [Function.update_of_ne (hne n hn)]
          exact htmp n (List.mem_cons_of_mem _ hn))
    rw [hfresh] at h
    refine ⟨queue :: queues,
      .cons (h.of_clean fun e he => hlog e (List.mem_append_left log he)) hentries, ?_, ?_⟩
    · intro p hp
      rw [List.zip_cons_cons] at hp
      rcases List.mem_cons.mp hp with rfl | hp
      · rw [hframe _ (by rw [hmember]; exact hnot), Function.update_self]
      · exact hall p hp
    · intro name hname
      rw [List.mem_cons, not_or] at hname
      rw [hframe name hname.2, Function.update_of_ne]
      rintro rfl
      exact hname.1 hmember

theorem exists_mem_zip {members : List Bytes} {queues : List Queue}
    (hlen : queues.length = members.length) {n : Bytes} (hn : n ∈ members) :
    ∃ queue, (n, queue) ∈ members.zip queues := by
  have hzip : (members.zip queues).map Prod.fst = members := List.map_fst_zip (by omega)
  rw [← hzip] at hn
  obtain ⟨⟨n', queue⟩, hmem, rfl⟩ := List.mem_map.mp hn
  exact ⟨queue, hmem⟩

/-- A table that is as it should be has no name with a NUL byte. -/
theorem AllOrNothing.clean {π : Type} {m : QueueMgr} {ret : Int} {w : Talk π}
    (h : AllOrNothing m ret w) (h0 : ret = 0) (hhead : ∀ c, w.log.head? ≠ some (c, some .nil)) :
    ∀ e ∈ w.log, Clean e := by
  obtain ⟨members, log, queues, hlog, hentries, htables⟩ := h.2 h0 hhead
  rw [hlog]
  intro e he
  rcases List.mem_cons.mp he with rfl | he
  · -- each member is the name of an entry
    intro x hx
    obtain ⟨n, hn, rfl⟩ := List.mem_map.mp hx
    obtain ⟨queue, hmem⟩ := exists_mem_zip hentries.clean.1 hn
    obtain ⟨name, hname, -⟩ := htables.all _ hmem
    have hn' : n = name.bytes := hname.symm
    rw [hn']
    exact CStr.zero_notMem name
  · exact hentries.clean.2 e he

/-- **`LoadQueues` is all or nothing** exactly when no name of a queue in the reply to `SMEMBERS`
and no name of a client in a reply about subscribers has a NUL byte in it, or some reply makes the
call fail. -/
theorem allOrNothing_iff {π : Type} (P : Peer π) (clock : Nat → Nat) (uuid : Uuid) (m : QueueMgr)
    (s : π) (ret : Int) (w : Talk π)
    (h : loadQueues.eval (Talk.exec P clock uuid) (.idle m s) = some (ret, w))
    (hf : ∀ e ∈ w.log, Formed e) :
    AllOrNothing m ret w ↔ (∀ e ∈ w.log, Clean e) ∨ ∃ e ∈ w.log, Bad e := by
  rcases loadQueues_eval hf h with ⟨hne, hsame, hbad⟩ | ⟨h0, hsame, hlog⟩ |
    ⟨h0, hgood, members, log, table, hnodup, hlog, htable, hloads⟩
  · exact ⟨fun _ => .inr hbad, fun _ => ⟨fun _ => hsame, fun h0 => absurd h0 hne⟩⟩
  · constructor
    · intro _
      refine .inl fun e he => ?_
      rw [hlog, List.mem_singleton] at he
      subst he
      exact fun x hx => (by cases hx)
    · intro _
      refine ⟨fun _ => hsame, fun _ hnil => ?_⟩
      rw [hlog] at hnil
      exact absurd rfl (hnil (.smembers allQueueName))
  · have hhead : ∀ c, w.log.head? ≠ some (c, some .nil) := by
      intro c hc
      rw [hlog] at hc
      cases hc
    constructor
    · exact fun hall => .inl (hall.clean h0 hhead)
    · rintro (hclean | ⟨e, he, hbad⟩)
      · rw [hlog, List.forall_mem_cons] at hclean
        have hnul : ∀ n ∈ members, 0 ∉ n := fun n hn =>
          hclean.1 (.string n) (List.mem_map.mpr ⟨n, hn, rfl⟩)
        obtain ⟨queues, hentries, hall, hframe⟩ :=
          hloads.entries hclean.2 hnul hnodup fun _ _ => rfl
        refine ⟨fun hor => ?_, fun _ _ => ⟨members, log, queues, hlog, hentries, ?_⟩⟩
        · rcases hor with hne | ⟨c, hc⟩
          · exact absurd h0 hne
          · exact absurd hc (hhead c)
        · rw [htable]
          refine ⟨fun p hp => ⟨_, bytes_ofBytes (hnul p.1 (List.of_mem_zip hp).1), hall p hp⟩, ?_⟩
          intro name queue hq
          have hin : name.bytes ∈ members := by
            by_contra hnot
            rw [hframe name hnot] at hq
            cases hq
          obtain ⟨queue', hmem⟩ := exists_mem_zip hentries.clean.1 hin
          have hq' := hall _ hmem
          rw [CStr.ofBytes_bytes, hq] at hq'
          cases hq'
          exact hmem
      · exact absurd hbad (hgood e he)

/-! ## Two runs -/

/-- A peer that answers its `i`-th command with `ρ i`. -/
def scripted (ρ : Nat → Option Reply) : Peer Nat := fun _ i => (ρ i, i + 1)

/-- A point-to-point queue `q`, and `c`, to which `q` and `c` have subscribed. -/
def twoMembers : Nat → Option Reply
  | 0 => some (.array [.string (ascii "q"), .string (ascii "c")])
  | 1 => some (pairs (metaFields
      ⟨⟨ascii "q", noNul_q⟩, PEER2PEER, 0, 0, .publisher, 1, ⟨ascii "c", noNul_c⟩⟩ 100))
  | 3 => some (pairs (metaFields
      ⟨⟨ascii "c", noNul_c⟩, SUB2PUB, 0, 0, .publisher, 1, ⟨ascii "c", noNul_c⟩⟩ 100))
  | 5 => some (pairs [(ascii "q", ascii "60"), (ascii "c", ascii "70")])
  | i => some (.integer i)

/-- Both are loaded, and each subscriber with its own time and length. -/
theorem allOrNothing_twoMembers : ∃ w,
    loadQueues.eval (Talk.exec (scripted twoMembers) (fun _ => 100) (Uuid.ofByte 0))
      (.idle oneSession 0) = some (0, w) ∧
    (w.mgr.name2Queue ⟨ascii "c", noNul_c⟩).map Queue.clients =
      some [⟨⟨ascii "q", noNul_q⟩, 6, 60⟩, ⟨⟨ascii "c", noNul_c⟩, 7, 70⟩] ∧
    AllOrNothing oneSession 0 w := by
  refine ⟨_, rfl, rfl, (allOrNothing_iff (scripted twoMembers) (fun _ => 100) (Uuid.ofByte 0)
    oneSession 0 0 _ rfl ?_).mpr (.inl ?_)⟩
  · show ∀ e ∈ [_, _, _, _, _, _, _, _], Formed e
    simp only [List.forall_mem_cons]
    exact ⟨⟨[ascii "q", ascii "c"], rfl, by decide⟩, ⟨_, rfl⟩, trivial, ⟨_, rfl⟩, trivial, ⟨_, rfl⟩,
      trivial, trivial, by simp⟩
  · show ∀ e ∈ [_, _, _, _, _, _, _, _], Clean e
    simp only [List.forall_mem_cons]
    refine ⟨?_, fun hsub => absurd hsub (by decide), trivial, fun hsub => absurd hsub (by decide),
      trivial, fun _ => ?_, trivial, trivial, by simp⟩
    · exact List.forall_mem_cons.mpr ⟨by decide, List.forall_mem_singleton.mpr (by decide)⟩
    · exact List.forall_mem_cons.mpr ⟨by decide, List.forall_mem_singleton.mpr (by decide)⟩

/-- One point-to-point queue, called `member` in the set of names. -/
def oneMember (member : Bytes) : Nat → Option Reply
  | 0 => some (.array [.string member])
  | 1 => some (pairs (metaFields
      ⟨⟨ascii "q", noNul_q⟩, PEER2PEER, 0, 0, .publisher, 1, ⟨ascii "c", noNul_c⟩⟩ 100))
  | _ => some (.integer 7)

theorem formed_oneMember {member : Bytes} {w : Talk Nat}
    (hlog : w.log = [(.smembers allQueueName, oneMember member 0),
      (.hgetall (getQueueMetaName (CStr.ofBytes member).bytes), oneMember member 1),
      (.llen (getQueueMsgName (CStr.ofBytes member).bytes), oneMember member 2)]) :
    ∀ e ∈ w.log, Formed e := by
  rw [hlog]
  simp only [List.forall_mem_cons]
  exact ⟨⟨[member], rfl, List.nodup_singleton member⟩, ⟨_, rfl⟩, trivial, by simp⟩

/-- The queue `a\0b` is loaded under the name `a`. -/
theorem loadQueues_cuts : ∃ ret w,
    loadQueues.eval (Talk.exec (scripted (oneMember [97, 0, 98])) (fun _ => 100) (Uuid.ofByte 0))
      (.idle oneSession 0) = some (ret, w) ∧ (∀ e ∈ w.log, Formed e) ∧
    ¬ AllOrNothing oneSession ret w := by
  refine ⟨0, _, rfl, formed_oneMember rfl, fun hall => ?_⟩
  have hclean := hall.clean rfl (fun c hc => by cases hc) _ List.mem_cons_self
  exact hclean (.string [97, 0, 98]) (List.mem_singleton_self _) (by decide)

end Domq.Mq
