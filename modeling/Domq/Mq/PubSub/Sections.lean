import Domq.Mq.PubSub.Commands

/-!
# Sections and returns keep the subscribers agreed

A section under the lock (`Agreed.locked`), a return (`Agreed.ret`) and a call (`Agreed.start`). A
section changes the cache where a subscriber is entered, a queue is cached by the `OpenQueue` that
has created or found it, or the table is reloaded; at a return a client has subscribed, or a
`PushMsg` has appended its copies.
-/

namespace Domq.Mq

open Domq.Lib Domq.Redis OpenArgs

section

variable {st st' : Store} {m m' : QueueMgr} {log log' : List Event} {cur cur' : Option Call}
variable {call : Call} {q : CStr}

/-! ## After a locked section -/

/-- The call in progress, if any, is neither creating a queue nor adding a subscriber. -/
def Outside (cur : Option Call) : Prop :=
  ∀ call ∈ cur, ∀ q, ¬ Creating q call ∧ ∀ c, ¬ Adds q c call ∧ ¬ Enters q c call

theorem outside_none : Outside none := nofun

theorem outside_of_op (hop : ∀ a, call.op ≠ .openQueue a) : Outside (some call) := by
  intro call' hcall' q
  cases hcall'
  refine ⟨fun hcr => ?_, fun c => ⟨fun hadds => ?_, fun hent => ?_⟩⟩
  · cases hcr with
    | named a => exact hop a rfl
    | created a => exact hop a rfl
  · obtain ⟨a, ha⟩ := hadds.op
    exact hop a ha
  · obtain ⟨a, now, ha, -⟩ := hent
    exact hop a ha

theorem outside_start (op : Op) : Outside (some ⟨op, []⟩) := by
  intro call hcall q
  cases hcall
  refine ⟨nofun, fun c => ⟨nofun, ?_⟩⟩
  rintro ⟨a, now, -, hmem⟩
  cases hmem

theorem Place.outside (h : Place st m log cur q) (hcur : Outside cur) (hcur' : Outside cur')
    (hcache : m'.cache q = m.cache q) (hlog : ∀ c, Subscribed log' q c ↔ Subscribed log q c) :
    Place st m' log' cur' q := by
  refine h.keep Iff.rfl rfl (fun _ ht => ht) hcache hlog ?_ (fun c => iff_of_false ?_ ?_)
    (fun c => iff_of_false ?_ ?_)
  · rintro - ⟨call, hcall, hcr⟩
    exact absurd hcr (hcur call hcall q).1
  · rintro ⟨call, hcall, hadds⟩
    exact ((hcur' call hcall q).2 c).1 hadds
  · rintro ⟨call, hcall, hadds⟩
    exact ((hcur call hcall q).2 c).1 hadds
  · rintro ⟨call, hcall, hent⟩
    exact ((hcur' call hcall q).2 c).2 hent
  · rintro ⟨call, hcall, hent⟩
    exact ((hcur call hcall q).2 c).2 hent

/-- A call takes the lock as the first thing it does, or after a command. -/
theorem Locks.head {s : Section} (h : Locks call s) :
    call.evs = [] ∨ ∃ c r, call.evs.head? = some (.redis c r) := by
  cases h with
  | addClient => exact .inr ⟨_, _, rfl⟩
  | openLock a evs hg =>
    cases hg with
    | other hr => exact .inl rfl
    | _ => exact .inr ⟨_, _, rfl⟩
  | swapQueues => exact .inr ⟨_, _, rfl⟩
  | _ => exact .inl rfl

theorem cache_of_pushLock {now : Nat} {code : Bytes} {c : CStr} {ty : Int32} {buf : List CStr}
    (h : (m.pushLock now code).1 = .go q c ty buf) :
    ∃ option, m.cache q = some (option, buf) ∧ option.msgType = ty := by
  rcases m.pushLock_cases now code with ⟨ret, -, hl, -⟩ | ⟨item, queue, -, hq, hl⟩
  · rw [hl] at h
    cases h
  · rw [hl] at h
    by_cases hfull : QueueMgr.full queue
    · simp only [if_pos hfull] at h
      cases h
    · simp only [if_neg hfull] at h
      cases h
      exact ⟨queue.option, QueueMgr.cache_of_name2Queue hq, rfl⟩

theorem cache_of_popLock {now : Nat} {code : Bytes} {c : CStr} {ty : Int32}
    (h : (m.popLock now code).1 = .go q c ty) :
    ∃ item queue, m.msgQueueCode2QueueName code = some item ∧
      m.name2Queue item.queueName = some queue ∧ item.queueName = q ∧ item.clientName = c ∧
      queue.option.msgType = ty := by
  rcases m.popLock_cases now code with ⟨ret, -, hl, -⟩ | ⟨item, queue, hi, hq, hl⟩
  · rw [hl] at h
    cases h
  · rw [hl] at h
    cases h
    exact ⟨item, queue, hi, hq, rfl, rfl, rfl⟩

/-- What the call in progress knows after a locked section. -/
theorem Agreed.sound_locked {s : Section} {now : Nat} {u : Uuid} {r : s.Res}
    (h : Agreed st m log (some call)) (hl : Locks call s) (hrun : s.run now u m = some (r, m'))
    (hpop : ∀ code item queue, s = .popLock code → m.msgQueueCode2QueueName code = some item →
      m.name2Queue item.queueName = some queue → queue.option.msgType = SUB2PUB →
        item.clientName ∈ queue.clients.map SubQueue.client) :
    Sound st m' (call.did (.locked now s r)) := by
  have hsound := h.sound _ rfl
  have hcache := QueueMgr.cache_run hrun
  -- the lookup of a push or a pop is the first thing the call does
  have hfirst : ∀ {x : Ev}, (∀ c r, x ≠ .redis c r) →
      (call.did (.locked now s r)).evs.head? = some x → Ev.locked now s r = x := by
    intro x hx hhead
    rcases did_head hhead with ⟨-, hev⟩ | hhead
    · exact hev
    · rcases hl.head with hnil | ⟨c, r', hred⟩
      · rw [hnil] at hhead
        cases hhead
      · exact absurd (Option.some.inj (hhead.symm.trans hred)) (hx c r')
  refine ⟨hsound.served, fun ev hev => ?_, fun a r₀ hcall => ?_, fun a now' r₀ hop hmem => ?_,
    fun q c hck => absurd hck not_checks_locked, fun now' code q c ty buf hhead => ?_,
    fun now' code q c ty hhead => ?_, fun hop ev hev => ?_⟩
  · rcases List.mem_append.mp hev with hev | hev
    · exact hsound.knows ev hev
    · rw [List.mem_singleton.mp hev]
      exact trivial
  · obtain ⟨op, evs⟩ := call
    rcases hcall with hcall | hcall
    · injection hcall with hop hevs
      cases (evs_concat (l := []) hevs).2
    · injection hcall with hop hevs
      cases (evs_concat (l := [_]) hevs).2
  · rcases List.mem_append.mp hmem with hmem | hmem
    · exact hsound.wrote a now' r₀ hop hmem
    · cases List.mem_singleton.mp hmem
  · cases hfirst (fun _ _ hev => by cases hev) hhead
    rw [hcache]
    exact cache_of_pushLock (congrArg Prod.fst (Option.some.inj hrun))
  · cases hfirst (fun _ _ hev => by cases hev) hhead
    rw [hcache]
    obtain ⟨item, queue, hi, hq, rfl, rfl, rfl⟩ :=
      cache_of_popLock (congrArg Prod.fst (Option.some.inj hrun))
    exact ⟨queue.option, _, QueueMgr.cache_of_name2Queue hq, rfl, hpop code item queue rfl hi hq⟩
  · rcases List.mem_append.mp hev with hev | hev
    · exact hsound.current hop ev hev
    · rw [List.mem_singleton.mp hev]
      exact trivial

/-- What a reload swaps in: the queues that are cached, with the subscribers in Redis. -/
theorem Agreed.swap_cases {names : List Bytes} {evs : List Ev} {tmp : CStr → Option Queue}
    (h : Agreed st m log (some ⟨.loadQueueMeta,
      .redis (.smembers allQueueName) (.array (names.map .string)) :: evs⟩))
    (hall : ReadAll evs names tmp) (q : CStr) :
    (m.cache q = none ∧ tmp q = none) ∨ ∃ option clients queue,
      m.cache q = some (option, clients) ∧ tmp q = some queue ∧
        queue.option.msgType = option.msgType ∧ (queue.option.msgType = SUB2PUB →
          queue.clients.map SubQueue.client = (subscribers st q).map CStr.ofBytes) := by
  have hcurrent := (h.sound _ rfl).current rfl
  have hnames : names = st.members allQueueName :=
    List.map_injective_iff.mpr (fun x y hxy => Reply.string.inj hxy)
      (Reply.array.inj (hcurrent _ List.mem_cons_self))
  have hread : ∀ k r, Ev.redis (.hgetall k) r ∈ evs → r = pairs (st.hash k) :=
    fun k r hmem => hcurrent _ (List.mem_cons_of_mem _ hmem)
  cases h.place q with
  | absent hn hc hs hl =>
    refine .inl ⟨hc, ?_⟩
    cases hq : tmp q with
    | none => rfl
    | some queue =>
      obtain ⟨⟨n, hn', heq⟩, -⟩ := hall.only q queue hq
      rw [hnames] at hn'
      obtain ⟨q', rfl⟩ := h.names n hn'
      rw [CStr.ofBytes_bytes] at heq
      subst heq
      exact absurd hn' hn
  | creating hcr hc hs hl =>
    rw [exists_mem_some] at hcr
    cases hcr
  | cached option clients hn hc ht hcopies =>
    right
    have hsome := hall.all q.bytes (hnames ▸ hn)
    rw [CStr.ofBytes_bytes] at hsome
    obtain ⟨queue, hq⟩ := Option.isSome_iff_exists.mp hsome
    obtain ⟨-, ⟨q₀, q₁, r, hmem, hval, hopt⟩, hsubs⟩ := hall.only q queue hq
    rw [hread _ r hmem] at hval
    obtain ⟨hname, hty⟩ := typed_of_getQueueValue h.stored hval
    rw [hopt, hname] at hsubs
    refine ⟨option, clients, queue, hc, hq, hopt ▸ hty.unique ht, fun hsub => ?_⟩
    obtain ⟨fvs, hmem', hcl⟩ := hsubs (hopt ▸ hsub)
    rw [hcl, pairs_injective (hread _ _ hmem')]
    simp [subscribers, fields]

/-- The subscribers a reload puts in the cache. -/
theorem Copies.reload {clients : List CStr} (h : Copies st log cur q clients) (hcur : Outside cur)
    (hcur' : Outside cur') (hlog : ∀ c, Subscribed log' q c ↔ Subscribed log q c) :
    Copies st log' cur' q ((subscribers st q).map CStr.ofBytes) := by
  have hnone : ∀ {cur : Option Call} (P : Call → Prop), (∀ call ∈ cur, ¬ P call) →
      ¬ ∃ call ∈ cur, P call := by
    rintro cur P hP ⟨call, hcall, hp⟩
    exact hP call hcall hp
  have hmem : ∀ c, c ∈ (subscribers st q).map CStr.ofBytes ↔ c.bytes ∈ subscribers st q := by
    intro c
    rw [List.mem_map]
    constructor
    · rintro ⟨f, hf, rfl⟩
      obtain ⟨c', rfl⟩ := h.text f hf
      rw [CStr.ofBytes_bytes]
      exact hf
    · exact fun hc => ⟨c.bytes, hc, CStr.ofBytes_bytes c⟩
  have hstored : ∀ c : CStr, c.bytes ∈ subscribers st q ↔ c ∈ clients := by
    intro c
    rw [h.stored]
    exact or_iff_left (hnone _ fun call hcall => ((hcur call hcall q).2 c).1)
  refine ⟨?_, h.distinct, h.text, fun c => ?_, fun c => ?_, fun c hadds => ?_⟩
  · refine h.distinct.map_on fun f hf f' hf' heq => ?_
    obtain ⟨c, rfl⟩ := h.text f hf
    obtain ⟨c', rfl⟩ := h.text f' hf'
    rw [CStr.ofBytes_bytes, CStr.ofBytes_bytes] at heq
    rw [heq]
  · rw [hmem]
    exact (or_iff_left (hnone _ fun call hcall => ((hcur' call hcall q).2 c).1)).symm
  · rw [hmem, hstored, h.subscribed, hlog,
      or_iff_left (hnone _ fun call hcall => ((hcur call hcall q).2 c).2),
      or_iff_left (hnone _ fun call hcall => ((hcur' call hcall q).2 c).2)]
  · exact absurd hadds (hnone _ fun call hcall => ((hcur' call hcall q).2 c).1)

theorem enters_locked {c : CStr} {now : Nat} {s : Section} {r : s.Res}
    (h : s ≠ .addClient q c) :
    Enters q c (call.did (.locked now s r)) ↔ Enters q c call := by
  constructor
  · rintro ⟨a, now', hop, hmem⟩
    refine ⟨a, now', hop, ?_⟩
    rcases List.mem_append.mp hmem with hmem | hmem
    · exact hmem
    · injection List.mem_singleton.mp hmem with _ hs
      exact absurd hs.symm h
  · rintro ⟨a, now', hop, hmem⟩
    exact ⟨a, now', hop, List.mem_append_left _ hmem⟩

/-- The call has put its client in the cache. -/
theorem Agreed.place_addClient {a : OpenArgs} {fvs : Reply} {now now' : Nat} {r : Reply} {t : Tid}
    {o : Option Call} (h : Agreed st m log (some ⟨.openQueue a, [.redis a.isMember (.integer 1),
      .redis a.readMeta fvs, .redis a.isClient (.integer 0), .redis (a.addClient now) r]⟩))
    (hcache : m'.cache = Section.onCache m.cache (.addClient a.msgQueueName a.clientName))
    (q : CStr) :
    Place st m' (log ++ [.did t o (.locked now' (.addClient a.msgQueueName a.clientName) ())])
      (some (Call.did ⟨.openQueue a, [.redis a.isMember (.integer 1), .redis a.readMeta fvs,
        .redis a.isClient (.integer 0), .redis (a.addClient now) r]⟩
        (.locked now' (.addClient a.msgQueueName a.clientName) ()))) q := by
  have hadds : ∀ q c, (∃ call' ∈ some (⟨.openQueue a, [.redis a.isMember (.integer 1),
      .redis a.readMeta fvs, .redis a.isClient (.integer 0), .redis (a.addClient now) r]⟩ : Call),
      Adds q c call') ↔ a.msgQueueName = q ∧ a.clientName = c := by
    intro q c
    rw [exists_mem_some]
    constructor
    · exact fun hadds => hadds.args
    · rintro ⟨hq, hc⟩
      exact .mk a fvs now r hq hc
  have hnew : ∀ q c, ¬ ∃ call' ∈ some (Call.did ⟨.openQueue a, [.redis a.isMember (.integer 1),
      .redis a.readMeta fvs, .redis a.isClient (.integer 0), .redis (a.addClient now) r]⟩
      (.locked now' (.addClient a.msgQueueName a.clientName) ())), Adds q c call' := by
    intro q c
    rw [exists_mem_some]
    exact not_adds_locked
  by_cases hq : q = a.msgQueueName
  · subst hq
    obtain ⟨option, clients, hc⟩ := h.cached_of_isMember (by simp)
    obtain ⟨hn, ht, hcopies⟩ := h.of_cache hc
    have hc' : m'.cache a.msgQueueName = some (option, clients ++ [a.clientName]) := by
      rw [hcache]
      simp only [Section.onCache, Function.update_self, hc, Option.getD_some]
    refine .cached option _ hn hc' ht fun hty => ?_
    have hold := hcopies hty
    have habsent : a.clientName ∉ clients := hold.adding _ ((hadds _ _).mpr ⟨rfl, rfl⟩)
    refine ⟨?_, hold.distinct, hold.text, fun c => ?_, fun c => ?_,
      fun c hc => absurd hc (hnew _ c)⟩
    · rw [List.nodup_append]
      refine ⟨hold.nodup, List.nodup_singleton _, fun c hc c' hc' heq => ?_⟩
      rw [List.mem_singleton] at hc'
      subst hc' heq
      exact habsent hc
    · rw [hold.stored, hadds, or_iff_left (hnew _ c), List.mem_append, List.mem_singleton]
      exact or_congr_right ⟨fun hc => hc.2.symm, fun hc => ⟨rfl, hc.symm⟩⟩
    · rw [List.mem_append, List.mem_singleton, hold.subscribed, subscribed_did, exists_mem_some,
        exists_mem_some]
      by_cases hc : c = a.clientName
      · subst hc
        refine iff_of_true (.inr rfl) (.inr ⟨a, now', rfl, ?_⟩)
        exact List.mem_append_right _ (List.mem_singleton.mpr rfl)
      · rw [or_iff_left hc, enters_locked]
        intro hs
        injection hs with _ hs
        exact hc hs.symm
  · have hsame : m'.cache q = m.cache q := by
      rw [hcache]
      exact Function.update_of_ne hq _ _
    refine (h.place q).keep Iff.rfl rfl (fun _ ht => ht) hsame (fun c => subscribed_did) ?_
      (fun c => iff_of_false (hnew q c) ?_) fun c => ?_
    · intro _ hcr
      rw [exists_mem_some] at hcr
      cases hcr
    · rw [hadds]
      exact fun hc => hq hc.1.symm
    · rw [exists_mem_some, exists_mem_some, enters_locked]
      intro hs
      injection hs with hs
      exact hq hs.symm

/-- The call has registered its session, and cached a queue that it has created. -/
theorem Agreed.place_openLock {a : OpenArgs} {evs : List Ev} {now : Nat} {code : Bytes} {t : Tid}
    {o : Option Call} (h : Agreed st m log (some ⟨.openQueue a, evs⟩)) (hg : Granted a evs)
    (hcache : m'.cache = Section.onCache m.cache (.openLock a)) (q : CStr) :
    Place st m' (log ++ [.did t o (.locked now (.openLock a) code)])
      (some (Call.did ⟨.openQueue a, evs⟩ (.locked now (.openLock a) code))) q := by
  have hsound := h.sound _ rfl
  have hnew : ∀ c, ¬ ∃ call' ∈ some (Call.did ⟨.openQueue a, evs⟩ (.locked now (.openLock a) code)),
      Adds q c call' := by
    intro c
    rw [exists_mem_some]
    exact not_adds_locked
  by_cases hq : q = a.msgQueueName ∧ m.cache q = none
  · obtain ⟨rfl, hnone⟩ := hq
    have hmissing : Ev.redis a.isMember (.integer 1) ∉ evs := by
      intro hmem
      obtain ⟨option, clients, hc⟩ := h.cached_of_isMember hmem
      rw [hnone] at hc
      cases hc
    have hbare : subscribers st a.msgQueueName = [] ∧ ∀ c, ¬ Subscribed log a.msgQueueName c := by
      cases h.place a.msgQueueName with
      | absent _ _ hs hl => exact ⟨hs, hl⟩
      | creating _ _ hs hl => exact ⟨hs, hl⟩
      | cached option clients _ hc _ _ =>
        rw [hnone] at hc
        cases hc
    have hc' : m'.cache a.msgQueueName = some (a.option, []) := by
      rw [hcache]
      simp only [Section.onCache, Function.update_self, hnone, Option.getD_none]
    cases hg with
    | created hcr r r' now' =>
      refine .cached a.option [] (hsound.knows (.redis a.addName r) (by simp) rfl) hc'
        (hsound.wrote a now' r' rfl (by simp)) fun _ => ?_
      refine ⟨List.nodup_nil, ?_, ?_, fun c => ?_, fun c => ?_, fun c hc => absurd hc (hnew c)⟩
      · rw [hbare.1]
        exact List.nodup_nil
      · rw [hbare.1]
        exact fun f hf => absurd hf List.not_mem_nil
      · rw [hbare.1, or_iff_left (hnew c)]
        exact iff_of_false List.not_mem_nil List.not_mem_nil
      · rw [subscribed_did, or_iff_right (hbare.2 c), exists_mem_some,
          enters_locked (s := .openLock a) (fun hs => by cases hs)]
        refine iff_of_false List.not_mem_nil ?_
        rintro ⟨a', now'', -, hmem⟩
        simp at hmem
    | other hr => exact absurd hr hsound.served
    | _ => exact absurd List.mem_cons_self hmissing
  · have hsame : m'.cache q = m.cache q := by
      rw [hcache]
      simp only [Section.onCache]
      by_cases hqa : q = a.msgQueueName
      · subst hqa
        obtain ⟨x, hx⟩ := Option.ne_none_iff_exists'.mp fun hnone => hq ⟨rfl, hnone⟩
        rw [Function.update_self, hx]
        rfl
      · exact Function.update_of_ne hqa _ _
    refine (h.place q).keep Iff.rfl rfl (fun _ ht => ht) hsame (fun c => subscribed_did) ?_
      (fun c => iff_of_false (hnew c) ?_) fun c => ?_
    · intro hnone hcr
      rw [exists_mem_some] at hcr
      exfalso
      cases hcr with
      | named _ r hq' => exact hq ⟨hq'.symm, hnone⟩
      | created _ r now' r' hq' => exact hq ⟨hq'.symm, hnone⟩
    · rw [exists_mem_some]
      intro hadds
      cases hadds.locks (.openLock a evs hg)
    · rw [exists_mem_some, exists_mem_some]
      exact enters_locked (s := .openLock a) (fun hs => by cases hs)

theorem Agreed.locked {s : Section} {now : Nat} {u : Uuid} {r : s.Res}
    (h : Agreed st m log (some call)) (hl : Locks call s) (hrun : s.run now u m = some (r, m'))
    (hpop : ∀ code item queue, s = .popLock code → m.msgQueueCode2QueueName code = some item →
      m.name2Queue item.queueName = some queue → queue.option.msgType = SUB2PUB →
        item.clientName ∈ queue.clients.map SubQueue.client) (t : Tid) (o : Option Call) :
    Agreed st m' (log ++ [.did t o (.locked now s r)]) (some (call.did (.locked now s r))) := by
  have hcache := QueueMgr.cache_run hrun
  have hsame : (∀ a, call.op ≠ .openQueue a) → m'.cache = m.cache → ∀ q, Place st m'
      (log ++ [.did t o (.locked now s r)]) (some (call.did (.locked now s r))) q := by
    intro hop hc q
    exact (h.place q).outside (outside_of_op hop) (outside_of_op hop) (congrFun hc q)
      fun c => subscribed_did
  refine ⟨h.stored, h.names, fun q => ?_, fun call' hcall' => ?_, h.delivered.did t o _⟩
  · cases hl with
    | addClient a fvs hf hp now' r' => exact h.place_addClient hcache q
    | openLock a evs hg => exact h.place_openLock hg hcache q
    | pushLock code data => exact hsame nofun hcache q
    | popLock code => exact hsame nofun hcache q
    | closeQueue code => exact hsame nofun hcache q
    | removeExpire e => exact absurd (h.sound _ rfl).served id
    | swapQueues names evs tmp hall hread =>
      have hswap : m'.cache q = (tmp q).map Queue.cached := congrFun hcache q
      rcases h.swap_cases hall q with ⟨hc, hq⟩ | ⟨option, clients, queue, hc, hq, hty, hcl⟩
      · refine (h.place q).outside (outside_of_op nofun) (outside_of_op nofun) ?_
          fun c => subscribed_did
        rw [hswap, hq, hc]
        rfl
      · obtain ⟨hn, ht, hcopies⟩ := h.of_cache hc
        rw [hq] at hswap
        refine .cached queue.option _ hn hswap (hty ▸ ht) fun hsub => ?_
        rw [hcl hsub]
        exact (hcopies (hty ▸ hsub)).reload (outside_of_op nofun) (outside_of_op nofun)
          fun c => subscribed_did
  · cases hcall'
    exact h.sound_locked hl hrun hpop

/-! ## After a return -/

theorem subscribed_ret {t : Tid} {x : Ret} {c : CStr} :
    Subscribed (log ++ [.ret t (some call) x]) q c ↔ Subscribed log q c ∨
      ∃ a evs, call = ⟨.openQueue a, evs⟩ ∧ x.1 = SUCCESS ∧ a.role = .subscriber ∧
        a.msgQueueName = q ∧ a.clientName = c := by
  constructor
  · rintro ⟨t', a, evs, y, hmem, hy, hr, hq, hc⟩
    rcases List.mem_append.mp hmem with hmem | hmem
    · exact .inl ⟨t', a, evs, y, hmem, hy, hr, hq, hc⟩
    · cases List.mem_singleton.mp hmem
      exact .inr ⟨a, evs, rfl, hy, hr, hq, hc⟩
  · rintro (⟨t', a, evs, y, hmem, hy, hr, hq, hc⟩ | ⟨a, evs, rfl, hx, hr, hq, hc⟩)
    · exact ⟨t', a, evs, y, List.mem_append_left _ hmem, hy, hr, hq, hc⟩
    · exact ⟨t, a, evs, x, List.mem_append_right _ (List.mem_singleton.mpr rfl), hx, hr, hq, hc⟩

/-- A subscriber that has been let in has seen the type it asked for. -/
theorem typed_of_granted {a : OpenArgs} {evs : List Ev} (hg : Granted a evs)
    (hk : ∀ ev ∈ evs, Knows st ev) (hr : a.role = .subscriber) :
    Typed st a.msgQueueName a.msgType := by
  have hread : ∀ {h}, a.Finds h → Ev.redis a.readMeta h ∈ evs →
      Typed st a.msgQueueName a.msgType := by
    rintro h ⟨-, queue, hval, hty⟩ hmem
    exact hty ▸ (hk _ hmem _ rfl _ _ hval).2
  cases hg with
  | other hr' => cases hr.symm.trans hr'
  | known hr' => cases hr.symm.trans hr'
  | created hc r r' now => cases hr.symm.trans hc.1
  | peer h hf hp => exact hread hf (by simp)
  | client h hf hp => exact hread hf (by simp)
  | joined h hf hp now now' r => exact hread hf (by simp)

/-- A subscriber that returns with success is in Redis. -/
theorem Agreed.seen_of_returns {a : OpenArgs} {evs : List Ev} {x : Ret}
    (h : Agreed st m log (some ⟨.openQueue a, evs⟩)) (hret : Returns ⟨.openQueue a, evs⟩ x)
    (hx : x.1 = SUCCESS) (hr : a.role = .subscriber) :
    Seen st a ∧ Typed st a.msgQueueName a.msgType := by
  rcases hret with ⟨evs', now, code, -, hg, hevs⟩ | ⟨hne, -⟩
  · have hk : ∀ ev ∈ evs', Knows st ev := by
      intro ev hev
      refine (h.sound _ rfl).knows ev ?_
      rw [show evs = _ from hevs]
      exact List.mem_append_left _ hev
    exact ⟨seen_of_granted hg hk (by simp [hr]), typed_of_granted hg hk hr⟩
  · exact absurd hx hne

/-- A call that has cached its client returns with success. -/
theorem Enters.returns {c : CStr} {x : Ret} (h : Enters q c call) (hret : Returns call x) :
    ∃ a evs, call = ⟨.openQueue a, evs⟩ ∧ x.1 = SUCCESS ∧ a.role = .subscriber ∧
      a.msgQueueName = q ∧ a.clientName = c := by
  obtain ⟨op, evs⟩ := call
  obtain ⟨a, now, hop, hmem⟩ := h
  cases hop
  refine ⟨a, evs, rfl, ?_⟩
  rcases hret with ⟨evs', now', code, hx, hg, hevs⟩ | ⟨-, href⟩
  · rw [show evs = _ from hevs] at hmem
    rcases List.mem_append.mp hmem with hmem | hmem
    · cases hg with
      | joined h hf hp now₁ now₂ r =>
        simp only [List.mem_cons, reduceCtorEq, List.not_mem_nil, or_false, false_or] at hmem
        injection hmem with _ hs
        injection hs with hq hc
        exact ⟨by rw [hx], hf.1, hq.symm, hc.symm⟩
      | _ => simp at hmem
    · cases List.mem_singleton.mp hmem
  · cases href <;> simp at hmem

theorem Creating.not_returns {x : Ret} (h : Creating q call) : ¬ Returns call x := by
  intro hret
  have hlast : ∀ {a : OpenArgs} {evs evs' : List Ev} {now : Nat} {code : Bytes},
      evs = evs' ++ [.locked now (.openLock a) code] →
        Ev.locked now (.openLock a) code ∈ evs := by
    rintro a evs evs' now code rfl
    exact List.mem_append_right _ (List.mem_singleton.mpr rfl)
  cases h with
  | named a r hq =>
    rcases hret with ⟨evs, now, code, -, -, hevs⟩ | ⟨-, href⟩
    · simpa using hlast hevs
    · cases href
  | created a r now' r' hq =>
    rcases hret with ⟨evs, now, code, -, -, hevs⟩ | ⟨-, href⟩
    · simpa using hlast hevs
    · cases href

/-- A `PushMsg` that returns has sent its message to the subscribers. -/
theorem Agreed.fansOut {code data : Bytes} {evs : List Ev} {x : Ret}
    (h : Agreed st m log (some ⟨.pushMsg code data, evs⟩))
    (hret : Returns ⟨.pushMsg code data, evs⟩ x) (hx : x.1 = SUCCESS) :
    ∃ now q c ty buf, evs.head? = some (.locked now (.pushLock code) (.go q c ty buf)) ∧
      (ty = SUB2PUB → FansOut log q data evs) := by
  obtain ⟨now, q, c, ty, buf, now', evs', hevs, hcmds⟩ := hret.1 hx
  have hevs : evs = _ := hevs
  subst hevs
  refine ⟨now, q, c, ty, buf, rfl, fun hty => ?_⟩
  obtain ⟨option, hcache, rfl⟩ := (h.sound _ rfl).pushes now code q c ty buf rfl
  obtain ⟨-, -, hcopies⟩ := h.of_cache hcache
  have hold := hcopies hty
  have hout : ∀ evs, Outside (some ⟨.pushMsg code data, evs⟩) := fun _ => outside_of_op nofun
  refine ⟨buf, hold.nodup, fun cl => ?_, ?_⟩
  · rw [hold.subscribed, exists_mem_some]
    exact or_iff_left ((hout _ _ rfl q).2 cl).2
  · calc (Ev.locked now (.pushLock code) (.go q c option.msgType buf) :: evs').filterMap Ev.rpush?
        = evs'.filterMap Ev.rpush? := rfl
      _ = (pushCmds q option.msgType buf data now').filterMap rpushOf := rpushes_of_cmds hcmds
      _ = (buf.map fun cl => getQueueSubName q.bytes cl.bytes).map fun key => (key, data) := by
        rw [rpushOf_pushCmds q c]
        simp only [QueueMgr.PushLock.targets, if_pos hty]
      _ = buf.map fun cl => (getQueueSubName q.bytes cl.bytes, data) := List.map_map

theorem Agreed.ret {x : Ret} (h : Agreed st m log (some call)) (hret : Returns call x) (t : Tid) :
    Agreed st m (log ++ [.ret t (some call) x]) none := by
  have hnone : ∀ P : Call → Prop, ¬ ∃ call' ∈ (none : Option Call), P call' := by
    rintro P ⟨call', hcall', -⟩
    cases hcall'
  refine ⟨h.stored, h.names, fun q => ?_, nofun, ?_⟩
  · have hseen : ∀ {a evs}, call = ⟨.openQueue a, evs⟩ → x.1 = SUCCESS → a.role = .subscriber →
        Seen st a ∧ Typed st a.msgQueueName a.msgType := by
      rintro a evs rfl hx hr
      exact h.seen_of_returns hret hx hr
    cases h.place q with
    | absent hn hc hs hl =>
      refine .absent hn hc hs fun c hsub => ?_
      rcases subscribed_ret.mp hsub with hsub | ⟨a, evs, hcall, hx, hr, rfl, -⟩
      · exact hl c hsub
      · exact hn (hseen hcall hx hr).1.1
    | creating hcr hc hs hl =>
      rw [exists_mem_some] at hcr
      exact absurd hret hcr.not_returns
    | cached option clients hn hc ht hcopies =>
      refine .cached option clients hn hc ht fun hty => ?_
      have hold := hcopies hty
      have hstored : ∀ c : CStr, c.bytes ∈ subscribers st q ↔ c ∈ clients := by
        intro c
        rw [hold.stored, exists_mem_some]
        exact or_iff_left fun hadds => hadds.not_returns hret
      refine ⟨hold.nodup, hold.distinct, hold.text, fun c => ?_, fun c => ?_,
        fun c hadds => absurd hadds (hnone _)⟩
      · rw [or_iff_left (hnone _)]
        exact hstored c
      · rw [or_iff_left (hnone _), hold.subscribed, exists_mem_some, subscribed_ret]
        constructor
        · rintro (hsub | hent)
          · exact .inl hsub
          · exact .inr (hent.returns hret)
        · rintro (hsub | ⟨a, evs, hcall, hx, hr, rfl, rfl⟩)
          · exact .inl hsub
          · rw [← exists_mem_some (P := Enters _ _), ← hold.subscribed]
            obtain ⟨hsaw, htyped⟩ := hseen hcall hx hr
            exact (hstored _).mp (hsaw.2 hr ((htyped.unique ht).trans hty)).2
  · intro before after t' code data evs y heq hy
    rcases concat_eq_split heq with ⟨rfl, he⟩ | ⟨after', hlog⟩
    · cases he
      exact h.fansOut hret hy
    · exact h.delivered before after' t' code data evs y hlog hy

theorem Agreed.start (h : Agreed st m log none) {op : Op} (hop : Served op) :
    Agreed st m log (some ⟨op, []⟩) := by
  refine ⟨h.stored, h.names, fun q => ?_, fun call hcall => ?_, h.delivered⟩
  · exact (h.place q).outside outside_none (outside_start op) rfl fun c => Iff.rfl
  · cases hcall
    refine ⟨hop, nofun, ?_, fun a now r _ hmem => ?_, nofun, nofun, nofun, fun _ ev hev => ?_⟩
    · rintro a r (hcall | hcall)
      · cases hcall
      · cases hcall
    · cases hmem
    · cases hev

end

end Domq.Mq
