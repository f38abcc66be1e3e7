import Domq.Lib.Text
import Mathlib.Logic.Function.Basic

/-!
# Redis, as far as the queue server uses it

The commands `QueueMgr` sends (`redisconnector.h`, `RedisCmd`) over one keyspace, with the replies
hiredis delivers (`redisReply`): lists, hashes and sets under string keys, a command against a key
of another kind answered by an error and without effect, a value that becomes empty removed.

* A hash keeps its fields in insertion order, and `HGETALL` / `SMEMBERS` list them so. Redis
  promises no order, so what is proved of runs against this store is proved for this one; what is
  proved for any peer or any replies is proved for every order.
* `Cmd.exec` is one command, atomically: the reply and the store after it.
* `Store.list`, `Store.hash`, `Store.members` read a key as a list, hash or set, empty when it holds
  none.

Results: a command touches only its own key (`exec_frame`); `list_exec`, `hash_exec`,
`members_exec` give the three readings after any command; `exec_fits` and `replyOk_exec`: on a key
of the right kind a command succeeds with a reply of its type and leaves a value of that kind.
-/

namespace Domq.Redis

open Domq.Lib

/-! ## Replies -/

/-- `redisReply`. -/
inductive Reply
  | string (s : Bytes)
  | array (elements : List Reply)
  | integer (n : Int)
  | nil
  | status (s : Bytes)
  | error (s : Bytes)

/-- `redisReply::type`, the `REDIS_REPLY_*` constants. -/
inductive ReplyType
  | string | array | integer | nil | status | error
  deriving DecidableEq

namespace Reply

def type : Reply → ReplyType
  | .string _ => .string
  | .array _ => .array
  | .integer _ => .integer
  | .nil => .nil
  | .status _ => .status
  | .error _ => .error

/-- `reply->integer`; hiredis leaves it `0` in replies of other types. -/
def toInt : Reply → Int
  | .integer n => n
  | _ => 0

/-- `reply->str` with `reply->len`; empty in replies that carry no text. -/
def str : Reply → Bytes
  | .string s | .status s | .error s => s
  | _ => []

/-- `reply->element`; empty in replies that are no array. -/
def elements : Reply → List Reply
  | .array es => es
  | _ => []

/-- The length of the text fits in an `int`. -/
def Short (r : Reply) : Prop := r.str.length < 2 ^ 31

instance (r : Reply) : Decidable r.Short := inferInstanceAs (Decidable (_ < _))

theorem exists_integer {r : Reply} (h : r.type = .integer) : ∃ n, r = .integer n := by
  cases r with
  | integer n => exact ⟨n, rfl⟩
  | _ => cases h

end Reply

/-! ## The store -/

/-- A value of the keyspace. -/
inductive Val
  | list (l : List Bytes)
  | hash (h : List (Bytes × Bytes))
  | set (s : List Bytes)
  deriving DecidableEq

/-- The kind of a value, and the kind of value a command works on. -/
inductive Kind
  | list | hash | set
  deriving DecidableEq

def Val.kind : Val → Kind
  | .list _ => .list
  | .hash _ => .hash
  | .set _ => .set

/-- The keyspace. -/
abbrev Store := Bytes → Option Val

/-- The value of a field. -/
def hget : List (Bytes × Bytes) → Bytes → Option Bytes
  | [], _ => none
  | (f, v) :: rest, g => if f = g then some v else hget rest g

/-- Write one field: in place when it exists, at the end otherwise. -/
def hset : List (Bytes × Bytes) → Bytes → Bytes → List (Bytes × Bytes)
  | [], f, v => [(f, v)]
  | (g, w) :: rest, f, v => if g = f then (f, v) :: rest else (g, w) :: hset rest f v

/-- Write several fields, in order. -/
def hmset (h : List (Bytes × Bytes)) (fvs : List (Bytes × Bytes)) : List (Bytes × Bytes) :=
  fvs.foldl (fun h fv => hset h fv.1 fv.2) h

/-- Add a member to a set. -/
def sadd (s : List Bytes) (m : Bytes) : List Bytes := if m ∈ s then s else s ++ [m]

/-- The fields of a hash. -/
def fields (h : List (Bytes × Bytes)) : List Bytes := h.map Prod.fst

def Val.list? : Val → Option (List Bytes)
  | .list l => some l
  | _ => none

def Val.hash? : Val → Option (List (Bytes × Bytes))
  | .hash h => some h
  | _ => none

def Val.set? : Val → Option (List Bytes)
  | .set s => some s
  | _ => none

namespace Store

/-- The list at `k`. -/
def list (st : Store) (k : Bytes) : List Bytes := ((st k).bind Val.list?).getD []

/-- The hash at `k`. -/
def hash (st : Store) (k : Bytes) : List (Bytes × Bytes) := ((st k).bind Val.hash?).getD []

/-- The set at `k`. -/
def members (st : Store) (k : Bytes) : List Bytes := ((st k).bind Val.set?).getD []

/-- Write one key. -/
def put (st : Store) (k : Bytes) (v : Option Val) : Store := Function.update st k v

/-- The key `k` holds nothing, or a value of kind `κ`. -/
def Fits (st : Store) (k : Bytes) (κ : Kind) : Prop := ∀ v, st k = some v → v.kind = κ

end Store

/-! ## Commands -/

/-- The commands `QueueMgr` sends. -/
inductive Cmd
  | sismember (key member : Bytes)
  | sadd (key member : Bytes)
  | smembers (key : Bytes)
  | hexists (key field : Bytes)
  | hset (key field value : Bytes)
  | hmset (key : Bytes) (fvs : List (Bytes × Bytes))
  | hgetall (key : Bytes)
  | llen (key : Bytes)
  | rpush (key data : Bytes)
  | lpop (key : Bytes)
  | ping
  deriving DecidableEq

namespace Cmd

/-- The key a command works on and the kind of value it expects there. -/
def target : Cmd → Option (Bytes × Kind)
  | .sismember k _ | .sadd k _ | .smembers k => some (k, .set)
  | .hexists k _ | .hset k _ _ | .hmset k _ | .hgetall k => some (k, .hash)
  | .llen k | .rpush k _ | .lpop k => some (k, .list)
  | .ping => none

/-- The reply to a command against a key of another kind. -/
def wrongType : Reply :=
  .error (ascii "WRONGTYPE Operation against a key holding the wrong kind of value")

/-- The value at the command's key is of the kind it expects. -/
def fitsB (c : Cmd) (st : Store) : Bool :=
  match c.target with
  | none => true
  | some (k, κ) =>
    match st k with
    | none => true
    | some v => v.kind = κ

/-- The reply to a command whose key is of the right kind. -/
def reply (st : Store) : Cmd → Reply
  | .sismember k m => .integer (if m ∈ st.members k then 1 else 0)
  | .sadd k m => .integer (if m ∈ st.members k then 0 else 1)
  | .smembers k => .array ((st.members k).map .string)
  | .hexists k f => .integer (if f ∈ fields (st.hash k) then 1 else 0)
  | .hset k f _ => .integer (if f ∈ fields (st.hash k) then 0 else 1)
  | .hmset _ _ => .status (ascii "OK")
  | .hgetall k => .array ((st.hash k).flatMap fun fv => [.string fv.1, .string fv.2])
  | .llen k => .integer (st.list k).length
  | .rpush k _ => .integer ((st.list k).length + 1 : Nat)
  | .lpop k =>
    match st.list k with
    | [] => .nil
    | d :: _ => .string d
  | .ping => .status (ascii "PONG")

/-- What a command whose key is of the right kind writes: the key and its value afterwards. -/
def write (st : Store) : Cmd → Option (Bytes × Option Val)
  | .sadd k m => some (k, some (.set (Redis.sadd (st.members k) m)))
  | .hset k f v => some (k, some (.hash (Redis.hset (st.hash k) f v)))
  | .hmset k fvs => some (k, some (.hash (Redis.hmset (st.hash k) fvs)))
  | .rpush k d => some (k, some (.list (st.list k ++ [d])))
  | .lpop k =>
    match st.list k with
    | [] => none
    | _ :: [] => some (k, none)
    | _ :: l => some (k, some (.list l))
  | _ => none

/-- One command: its reply and the store after it. -/
def exec (c : Cmd) (st : Store) : Reply × Store :=
  if c.fitsB st then
    (c.reply st,
      match c.write st with
      | none => st
      | some (k, v) => st.put k v)
  else (wrongType, st)

/-- The replies a command gets when its key is of the right kind. -/
def ReplyOk : Cmd → Reply → Prop
  | .sismember _ _, r | .hexists _ _, r | .sadd _ _, r | .hset _ _ _, r =>
    r = .integer 0 ∨ r = .integer 1
  | .smembers _, r => ∃ l : List Bytes, r = .array (l.map .string)
  | .hmset _ _, r | .ping, r => ∃ s, r = .status s
  | .hgetall _, r => ∃ h : List (Bytes × Bytes),
      r = .array (h.flatMap fun fv => [.string fv.1, .string fv.2])
  | .llen _, r | .rpush _ _, r => ∃ n : Nat, r = .integer n
  | .lpop _, r => r = .nil ∨ ∃ d, r = .string d

end Cmd

/-! ## Fields of hashes -/

@[simp] theorem hget_hset (h : List (Bytes × Bytes)) (f v g : Bytes) :
    hget (hset h f v) g = if g = f then some v else hget h g := by
  induction h with
  | nil =>
    simp only [hset, hget]
    by_cases hg : g = f
    · rw [if_pos hg, if_pos hg.symm]
    · rw [if_neg hg, if_neg (Ne.symm hg)]
  | cons e rest ih =>
    obtain ⟨g', w⟩ := e
    simp only [hset]
    by_cases hgf : g' = f
    · subst hgf
      rw [if_pos rfl]
      simp only [hget]
      by_cases hg : g = g'
      · rw [if_pos hg, if_pos hg.symm]
      · rw [if_neg hg, if_neg (Ne.symm hg), if_neg (Ne.symm hg)]
    · rw [if_neg hgf]
      simp only [hget]
      rw [ih]
      by_cases hg : g' = g
      · subst hg
        rw [if_pos rfl, if_pos rfl, if_neg hgf]
      · rw [if_neg hg, if_neg hg]

theorem mem_fields_hset {h : List (Bytes × Bytes)} {f v g : Bytes} :
    g ∈ fields (hset h f v) ↔ g ∈ fields h ∨ g = f := by
  induction h with
  | nil => simp [hset, fields]
  | cons e rest ih =>
    obtain ⟨g', w⟩ := e
    simp only [hset]
    unfold fields at ih ⊢
    split
    · rename_i hgf
      subst hgf
      simp only [List.map_cons, List.mem_cons]
      tauto
    · simp only [List.map_cons, List.mem_cons, ih]
      tauto

theorem mem_fields_hmset {h fvs : List (Bytes × Bytes)} {g : Bytes} :
    g ∈ fields (hmset h fvs) ↔ g ∈ fields h ∨ g ∈ fields fvs := by
  unfold hmset
  induction fvs generalizing h with
  | nil => simp [fields]
  | cons fv fvs ih =>
    rw [List.foldl_cons, ih, mem_fields_hset]
    simp only [fields, List.map_cons, List.mem_cons]
    tauto

/-- Writing a field keeps the fields distinct. -/
theorem nodup_fields_hset {h : List (Bytes × Bytes)} (f v : Bytes) (hn : (fields h).Nodup) :
    (fields (hset h f v)).Nodup := by
  induction h with
  | nil => simp [hset, fields]
  | cons e rest ih =>
    obtain ⟨g, w⟩ := e
    have hc : g ∉ fields rest ∧ (fields rest).Nodup := List.nodup_cons.mp hn
    simp only [hset]
    split
    · rename_i hgf
      subst hgf
      exact List.nodup_cons.mpr hc
    · rename_i hgf
      refine List.nodup_cons.mpr ⟨fun hm => ?_, ih hc.2⟩
      rcases mem_fields_hset.mp hm with hm | hm
      · exact hc.1 hm
      · exact hgf hm

/-! ## Members of sets -/

theorem mem_sadd {s : List Bytes} {m n : Bytes} : n ∈ sadd s m ↔ n ∈ s ∨ n = m := by
  unfold sadd
  split
  · rename_i hm
    constructor
    · exact .inl
    · rintro (hn | rfl)
      · exact hn
      · exact hm
  · simp

theorem nodup_sadd {s : List Bytes} {m : Bytes} (h : s.Nodup) : (sadd s m).Nodup := by
  unfold sadd
  split
  · exact h
  · rename_i hm
    exact List.nodup_append.mpr ⟨h, List.nodup_singleton m, fun a ha b hb => by
      rw [List.mem_singleton.mp hb]
      rintro rfl
      exact hm ha⟩

/-! ## What a command does -/

namespace Cmd

variable {c : Cmd} {st : Store} {k : Bytes}

theorem put_apply (k k' : Bytes) (v : Option Val) :
    st.put k' v k = if k' = k then v else st k := by
  unfold Store.put
  by_cases hk : k' = k
  · subst hk; rw [if_pos rfl, Function.update_self]
  · rw [if_neg hk, Function.update_of_ne (Ne.symm hk)]

/-- The key of the command is free or of the kind the command expects. -/
def Fits (c : Cmd) (st : Store) : Prop := ∀ k κ, c.target = some (k, κ) → st.Fits k κ

theorem fitsB_iff : c.fitsB st = true ↔ c.Fits st := by
  unfold fitsB Fits Store.Fits
  cases c.target with
  | none => simp
  | some kκ =>
    obtain ⟨k, κ⟩ := kκ
    simp only [Option.some.injEq, Prod.mk.injEq, and_imp]
    constructor
    · rintro h k' κ' rfl rfl v hv
      rw [hv] at h
      simpa using h
    · intro h
      cases hv : st k with
      | none => rfl
      | some v => simpa using h k κ rfl rfl v hv

/-- What a command writes, it writes at its own key, and with its own kind. -/
theorem write_target {v : Option Val} (h : c.write st = some (k, v)) :
    ∃ κ, c.target = some (k, κ) ∧ ∀ w, v = some w → w.kind = κ := by
  cases c with
  | sadd k' m =>
    simp only [write, Option.some.injEq, Prod.mk.injEq] at h
    obtain ⟨rfl, rfl⟩ := h
    exact ⟨_, rfl, by rintro w ⟨⟩; rfl⟩
  | hset k' f v' =>
    simp only [write, Option.some.injEq, Prod.mk.injEq] at h
    obtain ⟨rfl, rfl⟩ := h
    exact ⟨_, rfl, by rintro w ⟨⟩; rfl⟩
  | hmset k' fvs =>
    simp only [write, Option.some.injEq, Prod.mk.injEq] at h
    obtain ⟨rfl, rfl⟩ := h
    exact ⟨_, rfl, by rintro w ⟨⟩; rfl⟩
  | rpush k' d =>
    simp only [write, Option.some.injEq, Prod.mk.injEq] at h
    obtain ⟨rfl, rfl⟩ := h
    exact ⟨_, rfl, by rintro w ⟨⟩; rfl⟩
  | lpop k' =>
    simp only [write] at h
    split at h
    · exact absurd h (by simp)
    · cases h
      exact ⟨_, rfl, by rintro w ⟨⟩⟩
    · cases h
      exact ⟨_, rfl, by rintro w ⟨⟩; rfl⟩
  | _ => exact absurd h (by simp [write])

/-- **A command touches only its own key.** -/
theorem exec_frame (hk : ∀ κ, c.target ≠ some (k, κ)) : (c.exec st).2 k = st k := by
  unfold exec
  split
  · cases hw : c.write st with
    | none => rfl
    | some kv =>
      obtain ⟨κ, ht, -⟩ := write_target hw
      refine Function.update_of_ne ?_ _ _
      rintro rfl
      exact hk κ ht
  · rfl

/-- On a key of the right kind, a command gets a reply of its type. -/
theorem replyOk_exec (hf : c.Fits st) : c.ReplyOk (c.exec st).1 := by
  unfold exec
  rw [if_pos (fitsB_iff.mpr hf)]
  cases c with
  | sismember k m | hexists k f =>
    simp only [reply, ReplyOk]
    split
    · exact Or.inr rfl
    · exact Or.inl rfl
  | sadd k m | hset k f v =>
    simp only [reply, ReplyOk]
    split
    · exact Or.inl rfl
    · exact Or.inr rfl
  | lpop k =>
    simp only [reply, ReplyOk]
    split
    · exact Or.inl rfl
    · exact Or.inr ⟨_, rfl⟩
  | smembers k => exact ⟨_, rfl⟩
  | hmset k fvs => exact ⟨_, rfl⟩
  | hgetall k => exact ⟨_, rfl⟩
  | llen k => exact ⟨_, rfl⟩
  | rpush k d => exact ⟨_, rfl⟩
  | ping => exact ⟨_, rfl⟩

/-- Such a reply is no error. -/
theorem ReplyOk.ne_error {r : Reply} (h : c.ReplyOk r) (msg : Bytes) : r ≠ .error msg := by
  rintro rfl
  cases c <;> simp [ReplyOk] at h

/-- A command leaves a key of some kind of that kind, when it expects no other there. -/
theorem exec_fits {κ : Kind} (hk : ∀ κ', c.target = some (k, κ') → κ' = κ)
    (hf : st.Fits k κ) : (c.exec st).2.Fits k κ := by
  unfold exec
  split
  · cases hw : c.write st with
    | none => exact hf
    | some kv =>
      obtain ⟨k', v⟩ := kv
      obtain ⟨κ', ht, hv⟩ := write_target hw
      intro w h
      simp only [put_apply] at h
      split at h
      · rename_i hkk
        subst hkk
        rw [hv w h, hk κ' ht]
      · exact hf w h
  · exact hf

/-! ### The three readings after a command -/

/-- What a command makes of the list at `k`. -/
def onList (k : Bytes) (l : List Bytes) : Cmd → List Bytes
  | .rpush k' d => if k' = k then l ++ [d] else l
  | .lpop k' => if k' = k then l.tail else l
  | _ => l

/-- What a command makes of the hash at `k`. -/
def onHash (k : Bytes) (h : List (Bytes × Bytes)) : Cmd → List (Bytes × Bytes)
  | .hset k' f v => if k' = k then Redis.hset h f v else h
  | .hmset k' fvs => if k' = k then Redis.hmset h fvs else h
  | _ => h

/-- What a command makes of the set at `k`. -/
def onMembers (k : Bytes) (s : List Bytes) : Cmd → List Bytes
  | .sadd k' m => if k' = k then Redis.sadd s m else s
  | _ => s

/-- The store after a command whose key is of the right kind. -/
theorem exec_store (hf : c.Fits st) : (c.exec st).2 =
    match c.write st with
    | none => st
    | some (k, v) => st.put k v := by
  unfold exec
  rw [if_pos (fitsB_iff.mpr hf)]

/-- Two stores that differ at most in one key, where neither has a value of kind `κ`. -/
def AgreeOff (κ : Kind) (st st' : Store) : Prop :=
  ∀ k, st' k = st k ∨ ((∀ v, st k = some v → v.kind ≠ κ) ∧ ∀ v, st' k = some v → v.kind ≠ κ)

/-- A command of another kind changes nothing a reader of kind `κ` sees. -/
theorem exec_agreeOff {κ : Kind} (hf : c.Fits st) (hκ : ∀ k κ', c.target = some (k, κ') → κ' ≠ κ) :
    AgreeOff κ st (c.exec st).2 := by
  intro k
  rw [exec_store hf]
  cases h : c.write st with
  | none => exact Or.inl rfl
  | some kv =>
    obtain ⟨k', v⟩ := kv
    obtain ⟨κ', ht, hv⟩ := write_target h
    by_cases hk : k = k'
    · subst hk
      refine Or.inr ⟨fun w hw => ?_, fun w hw => ?_⟩
      · rw [hf _ _ ht w hw]; exact hκ _ _ ht
      · simp only [Store.put, Function.update_self] at hw
        rw [hv w hw]; exact hκ _ _ ht
    · exact Or.inl (Function.update_of_ne hk _ _)

theorem AgreeOff.read {κ : Kind} {st' : Store} (h : AgreeOff κ st st') {β : Type}
    {f : Val → Option β} (hf : ∀ v, v.kind ≠ κ → f v = none) (k : Bytes) :
    (st' k).bind f = (st k).bind f := by
  rcases h k with h | ⟨h₁, h₂⟩
  · rw [h]
  · have hnone : ∀ o : Option Val, (∀ v, o = some v → v.kind ≠ κ) → o.bind f = none := by
      intro o ho
      cases o with
      | none => rfl
      | some v => exact hf v (ho v rfl)
    rw [hnone _ h₁, hnone _ h₂]

theorem AgreeOff.list {st' : Store} (h : AgreeOff .list st st') (k : Bytes) :
    st'.list k = st.list k := by
  unfold Store.list
  rw [h.read (fun v hv => by cases v <;> first | rfl | exact absurd rfl hv) k]

theorem AgreeOff.hash {st' : Store} (h : AgreeOff .hash st st') (k : Bytes) :
    st'.hash k = st.hash k := by
  unfold Store.hash
  rw [h.read (fun v hv => by cases v <;> first | rfl | exact absurd rfl hv) k]

theorem AgreeOff.members {st' : Store} (h : AgreeOff .set st st') (k : Bytes) :
    st'.members k = st.members k := by
  unfold Store.members
  rw [h.read (fun v hv => by cases v <;> first | rfl | exact absurd rfl hv) k]

/-- **The list at `k` after a command.** -/
theorem list_exec (hf : c.Fits st) (k : Bytes) :
    (c.exec st).2.list k = c.onList k (st.list k) := by
  cases c with
  | rpush k' d =>
    rw [exec_store hf]
    by_cases hk : k' = k
    · subst hk; simp [write, onList, Store.list, put_apply, Val.list?]
    · simp [write, onList, Store.list, put_apply, hk]
  | lpop k' =>
    rw [exec_store hf]
    by_cases hk : k' = k
    · subst hk
      simp only [write, onList, if_true]
      cases hl : st.list k' with
      | nil => simp [hl]
      | cons d l =>
        cases l with
        | nil => simp [Store.list, put_apply]
        | cons d' l => simp [Store.list, put_apply, Val.list?]
    · simp only [write, onList, if_neg hk]
      cases hl : st.list k' with
      | nil => rfl
      | cons d l =>
        cases l with
        | nil => simp [Store.list, put_apply, hk]
        | cons d' l => simp [Store.list, put_apply, hk]
  | llen k' => rw [exec_store hf]; rfl
  | _ => exact (exec_agreeOff hf (by simp [target])).list k

/-- **The hash at `k` after a command.** -/
theorem hash_exec (hf : c.Fits st) (k : Bytes) :
    (c.exec st).2.hash k = c.onHash k (st.hash k) := by
  cases c with
  | hset k' f v =>
    rw [exec_store hf]
    by_cases hk : k' = k
    · subst hk; simp [write, onHash, Store.hash, put_apply, Val.hash?]
    · simp [write, onHash, Store.hash, put_apply, hk]
  | hmset k' fvs =>
    rw [exec_store hf]
    by_cases hk : k' = k
    · subst hk; simp [write, onHash, Store.hash, put_apply, Val.hash?]
    · simp [write, onHash, Store.hash, put_apply, hk]
  | hexists k' f => rw [exec_store hf]; rfl
  | hgetall k' => rw [exec_store hf]; rfl
  | _ => exact (exec_agreeOff hf (by simp [target])).hash k

/-- No command takes a field out of a hash. -/
theorem fields_exec (hf : c.Fits st) {f : Bytes} (h : f ∈ fields (st.hash k)) :
    f ∈ fields ((c.exec st).2.hash k) := by
  rw [hash_exec hf]
  cases c with
  | hset k' g v =>
    simp only [onHash]
    split
    · exact mem_fields_hset.mpr (.inl h)
    · exact h
  | hmset k' fvs =>
    simp only [onHash]
    split
    · exact mem_fields_hmset.mpr (.inl h)
    · exact h
  | _ => exact h

/-- **The set at `k` after a command.** -/
theorem members_exec (hf : c.Fits st) (k : Bytes) :
    (c.exec st).2.members k = c.onMembers k (st.members k) := by
  cases c with
  | sadd k' m =>
    rw [exec_store hf]
    by_cases hk : k' = k
    · subst hk; simp [write, onMembers, Store.members, put_apply, Val.set?]
    · simp [write, onMembers, Store.members, put_apply, hk]
  | sismember k' m => rw [exec_store hf]; rfl
  | smembers k' => rw [exec_store hf]; rfl
  | _ => exact (exec_agreeOff hf (by simp [target])).members k

/-- The reply of a command whose key is of the right kind. -/
theorem exec_reply (hf : c.Fits st) : (c.exec st).1 = c.reply st := by
  unfold exec
  rw [if_pos (fitsB_iff.mpr hf)]

end Cmd

end Domq.Redis
