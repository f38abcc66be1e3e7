import Domq.Lib.Text

/-!
# The table of message factories

`MappedMsgFactory` (`netmgr/factory.cpp`): message types by name, each with the factory that was
registered for it. `F` is the type of factories, told apart by their addresses, and `known f` is
what `f->KnownTypes()` returns: any list, with any overlap and any repetition.

* `std::map` is `Std.TreeMap`, ordered as `std::string` is; its `insert` leaves an entry that is
  already there.
* `Create` calls `Create` of one factory or of none; `createBy` stands for these.

`Ownership` says what the table is for: which factory owns which type, given the calls made.
`owned_of_calls` connects the two: after any sequence of calls the table represents the ownership,
so that every call is answered and delegated by it.
-/

namespace Domq.Netmgr

open Domq.Lib

/-! ## The table -/

/-- `MappedMsgFactory`: its `factories`. -/
structure MappedMsgFactory (F : Type) where
  factories : Std.TreeMap Bytes F

/-- A call of `RegisterFactory` or `UnregisterFactory`. -/
inductive FactoryCall (F : Type)
  | registerFactory (factory : F)
  | unregisterFactory (factory : F)

namespace MappedMsgFactory

variable {F M : Type}

/-- A new table. -/
def new : MappedMsgFactory F := ⟨∅⟩

/-- `factories.find(type)`. -/
def find (m : MappedMsgFactory F) (type : Bytes) : Option F := m.factories[type]?

section Calls

variable [DecidableEq F] (known : F → List Bytes)

/-- The first loop of `RegisterFactory`: some type belongs to another factory. -/
def conflicts (m : MappedMsgFactory F) (factory : F) : List Bytes → Bool
  | [] => false
  | type :: types =>
    match m.find type with
    | some second => if second ≠ factory then true else m.conflicts factory types
    | none => m.conflicts factory types

/-- `RegisterFactory`. -/
def registerFactory (factory : F) (m : MappedMsgFactory F) : Int × MappedMsgFactory F :=
  if m.conflicts factory (known factory) then (-1, m)
  else (0, ⟨(known factory).foldl (fun fs type => fs.insertIfNew type factory) m.factories⟩)

/-- The loop body of `UnregisterFactory`. -/
def eraseType (factory : F) (m : MappedMsgFactory F) (type : Bytes) : MappedMsgFactory F :=
  if m.find type = some factory then ⟨m.factories.erase type⟩ else m

/-- `UnregisterFactory`. -/
def unregisterFactory (factory : F) (m : MappedMsgFactory F) : MappedMsgFactory F :=
  (known factory).foldl (fun m type => m.eraseType factory type) m

/-- The table after one call. -/
def step (m : MappedMsgFactory F) : FactoryCall F → MappedMsgFactory F
  | .registerFactory factory => (m.registerFactory known factory).2
  | .unregisterFactory factory => m.unregisterFactory known factory

/-- A new table after a sequence of calls. -/
def after (calls : List (FactoryCall F)) : MappedMsgFactory F := calls.foldl (step known) new

end Calls

/-- `KnownTypes`. -/
def knownTypes (m : MappedMsgFactory F) : List Bytes := m.factories.keys

/-- `Create`: the message, or `NULL`, and the calls of the factories' `Create` it makes. -/
def create (createBy : F → CStr → Option M) (m : MappedMsgFactory F) (type : CStr) :
    Option M × List (F × CStr) :=
  match m.find type.bytes with
  | none => (none, [])
  | some second => (createBy second type, [(second, type)])

end MappedMsgFactory

/-! ## Ownership -/

/-- `o type f`: the factory `f` owns `type`. -/
abbrev Ownership (F : Type) := Bytes → F → Prop

namespace Ownership

variable {F : Type} (known : F → List Bytes)

/-- A factory is refused when one of its types has a different owner. -/
def Refused (o : Ownership F) (f : F) : Prop := ∃ type ∈ known f, ∃ g, o type g ∧ g ≠ f

/-- What a call does: a factory that is not refused comes to own all its types, and one that is
unregistered owns nothing. -/
def step (o : Ownership F) : FactoryCall F → Ownership F
  | .registerFactory f => fun type g => o type g ∨ (g = f ∧ type ∈ known f ∧ ¬ Refused known o f)
  | .unregisterFactory f => fun type g => o type g ∧ g ≠ f

/-- The ownership after a sequence of calls. -/
def after (calls : List (FactoryCall F)) : Ownership F :=
  calls.foldl (step known) fun _ _ => False

end Ownership

namespace MappedMsgFactory

variable {F M : Type} [DecidableEq F] {known : F → List Bytes}

/-- The table says who owns what, and only known types are owned. -/
structure Represents (known : F → List Bytes) (m : MappedMsgFactory F) (o : Ownership F) :
    Prop where
  find_iff : ∀ type f, m.find type = some f ↔ o type f
  known_of_owned : ∀ {type f}, o type f → type ∈ known f

/-- The table answers as the ownership `o` wants it. -/
structure Answers (known : F → List Bytes) (createBy : F → CStr → Option M)
    (m : MappedMsgFactory F) (o : Ownership F) : Prop where
  refused_iff : ∀ f, (m.registerFactory known f).1 = -1 ↔ Ownership.Refused known o f
  refused : ∀ f, Ownership.Refused known o f → m.registerFactory known f = (-1, m)
  accepted : ∀ f, ¬ Ownership.Refused known o f → (m.registerFactory known f).1 = 0 ∧
    ∀ type, (m.registerFactory known f).2.find type =
      if type ∈ known f then some f else m.find type
  unregistered : ∀ f type g, (m.unregisterFactory known f).find type = some g ↔
    m.find type = some g ∧ ¬ o type f
  one_owner : ∀ type f g, o type f → o type g → f = g
  knownTypes_nodup : m.knownTypes.Nodup
  mem_knownTypes : ∀ type, type ∈ m.knownTypes ↔ ∃ f, o type f
  delegated : ∀ type f, o type.bytes f → m.create createBy type = (createBy f type, [(f, type)])
  not_delegated : ∀ type, (∀ f, ¬ o type.bytes f) → m.create createBy type = (none, [])

/-! ## The loops -/

theorem conflicts_iff (m : MappedMsgFactory F) (f : F) (types : List Bytes) :
    m.conflicts f types = true ↔ ∃ type ∈ types, ∃ g, m.find type = some g ∧ g ≠ f := by
  induction types with
  | nil => simp [conflicts]
  | cons type types ih =>
    rw [conflicts]
    rcases h : m.find type with - | g
    · simp [ih, h]
    · by_cases hg : g = f
      · simp [ih, h, hg]
      · simp [h, hg]

omit [DecidableEq F] in
theorem getElem?_insertAll (f : F) (types : List Bytes) (fs : Std.TreeMap Bytes F)
    (type : Bytes) :
    (types.foldl (fun fs type => fs.insertIfNew type f) fs)[type]? =
      if type ∈ types then some (fs[type]?.getD f) else fs[type]? := by
  induction types generalizing fs with
  | nil => simp
  | cons t types ih =>
    have hone : (fs.insertIfNew t f)[type]? =
        if type = t then some (fs[type]?.getD f) else fs[type]? := by
      rw [Std.TreeMap.getElem?_insertIfNew]
      by_cases ht : type = t
      · subst ht
        rcases h : fs[type]? with - | g
        · have hnot : type ∉ fs := by simp [Std.TreeMap.mem_iff_isSome_getElem?, h]
          simp [hnot]
        · have hin : type ∈ fs := by simp [Std.TreeMap.mem_iff_isSome_getElem?, h]
          simp [hin]
      · have hne : compare t type ≠ .eq := fun h => ht (Std.LawfulEqOrd.eq_of_compare h).symm
        rw [if_neg (fun h => hne h.1), if_neg ht]
    rw [List.foldl_cons, ih, hone]
    by_cases ht : type = t
    · simp [ht]
    · simp [ht]

theorem find_eraseType (f : F) (m : MappedMsgFactory F) (t type : Bytes) :
    (m.eraseType f t).find type =
      if type = t ∧ m.find type = some f then none else m.find type := by
  unfold eraseType
  by_cases ht : m.find t = some f
  · rw [if_pos ht]
    show (m.factories.erase t)[type]? = _
    rw [Std.TreeMap.getElem?_erase]
    by_cases htype : type = t
    · subst htype
      simp [ht]
    · have hne : compare t type ≠ .eq := fun h => htype (Std.LawfulEqOrd.eq_of_compare h).symm
      rw [if_neg hne, if_neg (fun h => htype h.1)]
      rfl
  · rw [if_neg ht, if_neg]
    rintro ⟨rfl, h⟩
    exact ht h

theorem find_unregisterFactory (f : F) (m : MappedMsgFactory F) (type : Bytes) :
    (m.unregisterFactory known f).find type =
      if type ∈ known f ∧ m.find type = some f then none else m.find type := by
  unfold unregisterFactory
  induction known f generalizing m with
  | nil => simp
  | cons t types ih =>
    rw [List.foldl_cons, ih, find_eraseType]
    by_cases ht : type = t
    · subst ht
      by_cases hf : m.find type = some f
      · simp [hf]
      · simp [hf]
    · simp [ht]

/-- Without a conflict, an entry for a type of the factory is the factory's own. -/
theorem eq_of_not_conflicts {m : MappedMsgFactory F} {f g : F} {types : List Bytes} {type : Bytes}
    (h : m.conflicts f types = false) (ht : type ∈ types) (hg : m.find type = some g) : g = f := by
  by_contra hne
  have := (conflicts_iff m f types).mpr ⟨type, ht, g, hg, hne⟩
  rw [h] at this
  exact absurd this (by decide)

theorem find_registerFactory {f : F} {m : MappedMsgFactory F}
    (h : m.conflicts f (known f) = false) (type : Bytes) :
    (m.registerFactory known f).2.find type =
      if type ∈ known f then some f else m.find type := by
  unfold registerFactory
  rw [if_neg (by simp [h])]
  show (List.foldl _ _ _)[type]? = _
  rw [getElem?_insertAll]
  by_cases ht : type ∈ known f
  · rw [if_pos ht, if_pos ht]
    rcases hfind : m.find type with - | g
    · rw [show m.factories[type]? = none from hfind, Option.getD_none]
    · rw [show m.factories[type]? = some g from hfind, Option.getD_some,
        eq_of_not_conflicts h ht hfind]
  · rw [if_neg ht, if_neg ht]
    rfl

/-! ## The table represents the ownership -/

variable {m : MappedMsgFactory F} {o : Ownership F}

theorem Represents.conflicts_iff_refused (h : Represents known m o) (f : F) :
    m.conflicts f (known f) = true ↔ Ownership.Refused known o f := by
  rw [conflicts_iff]
  simp only [h.find_iff, Ownership.Refused]

omit [DecidableEq F] in
theorem represents_new : Represents known (new : MappedMsgFactory F) fun _ _ => False where
  find_iff type f := by simp [find, new]
  known_of_owned h := h.elim

/-- **One call.** -/
theorem Represents.step (h : Represents known m o) (call : FactoryCall F) :
    Represents known (m.step known call) (Ownership.step known o call) := by
  rcases call with f | f
  · by_cases hr : Ownership.Refused known o f
    · have hc := (h.conflicts_iff_refused f).mpr hr
      have hsame : m.step known (.registerFactory f) = m := by
        unfold MappedMsgFactory.step registerFactory
        simp only [hc, if_true]
      have hown : Ownership.step known o (.registerFactory f) = o := by
        funext type g
        simp [Ownership.step, hr]
      rw [hsame, hown]
      exact h
    · have hc : m.conflicts f (known f) = false := by
        rw [← Bool.not_eq_true, h.conflicts_iff_refused]
        exact hr
      constructor
      · intro type g
        show (m.registerFactory known f).2.find type = some g ↔
          o type g ∨ (g = f ∧ type ∈ known f ∧ ¬ Ownership.Refused known o f)
        rw [find_registerFactory hc]
        by_cases ht : type ∈ known f
        · rw [if_pos ht, Option.some.injEq]
          constructor
          · rintro rfl
            exact Or.inr ⟨rfl, ht, hr⟩
          · rintro (hg | ⟨rfl, -⟩)
            · by_contra hne
              exact hr ⟨type, ht, g, hg, fun e => hne e.symm⟩
            · rfl
        · rw [if_neg ht, h.find_iff]
          simp [ht]
      · rintro type g (hg | ⟨rfl, ht, -⟩)
        · exact h.known_of_owned hg
        · exact ht
  · constructor
    · intro type g
      show (m.unregisterFactory known f).find type = some g ↔ o type g ∧ g ≠ f
      rw [find_unregisterFactory, ← h.find_iff]
      by_cases hf : m.find type = some f
      · have ht : type ∈ known f := h.known_of_owned ((h.find_iff type f).mp hf)
        rw [if_pos ⟨ht, hf⟩, hf]
        simp only [reduceCtorEq, Option.some.injEq, false_iff, not_and, not_not]
        exact Eq.symm
      · rw [if_neg (fun e => hf e.2)]
        constructor
        · rintro hg
          exact ⟨hg, fun e => hf (e ▸ hg)⟩
        · exact And.left
    · rintro type g ⟨hg, -⟩
      exact h.known_of_owned hg

/-- **Any sequence of calls.** -/
theorem represents_after (calls : List (FactoryCall F)) :
    Represents known (after known calls) (Ownership.after known calls) := by
  unfold after Ownership.after
  have hrun : ∀ {m : MappedMsgFactory F} {o : Ownership F}, Represents known m o →
      Represents known (calls.foldl (MappedMsgFactory.step known) m)
        (calls.foldl (Ownership.step known) o) := by
    induction calls with
    | nil => exact id
    | cons call calls ih => exact fun h => ih (h.step call)
  exact hrun represents_new

/-- A table that represents an ownership answers by it. -/
theorem Represents.answers (h : Represents known m o) (createBy : F → CStr → Option M) :
    Answers known createBy m o where
  refused_iff f := by
    rw [← h.conflicts_iff_refused]
    unfold registerFactory
    by_cases hc : m.conflicts f (known f) = true
    · simp [hc]
    · simp [hc]
  refused f hr := by
    unfold registerFactory
    rw [if_pos ((h.conflicts_iff_refused f).mpr hr)]
  accepted f hr := by
    have hc : m.conflicts f (known f) = false := by
      rw [← Bool.not_eq_true, h.conflicts_iff_refused]
      exact hr
    refine ⟨?_, find_registerFactory hc⟩
    unfold registerFactory
    rw [if_neg (by simp [hc])]
  unregistered f type g := by
    rw [find_unregisterFactory, ← h.find_iff]
    by_cases hf : m.find type = some f
    · rw [if_pos ⟨h.known_of_owned ((h.find_iff type f).mp hf), hf⟩]
      simp [hf]
    · rw [if_neg (fun e => hf e.2)]
      simp [hf]
  one_owner type f g hf hg := by
    rw [← h.find_iff] at hf hg
    exact Option.some.inj (hf.symm.trans hg)
  knownTypes_nodup := Std.TreeMap.nodup_keys
  mem_knownTypes type := by
    unfold knownTypes
    rw [Std.TreeMap.mem_keys, Std.TreeMap.mem_iff_isSome_getElem?, Option.isSome_iff_exists]
    exact exists_congr (h.find_iff type)
  delegated type f hf := by
    unfold create
    rw [(h.find_iff _ _).mpr hf]
  not_delegated type hno := by
    have hnone : m.find type.bytes = none := by
      rw [Option.eq_none_iff_forall_ne_some]
      intro f hf
      exact hno f ((h.find_iff _ _).mp hf)
    unfold create
    rw [hnone]

/-- **Ownership of message types.** After any sequence of registrations and removals, of factories
that know any types, the table answers by the ownership the calls have led to. -/
theorem owned_of_calls (known : F → List Bytes) (createBy : F → CStr → Option M)
    (calls : List (FactoryCall F)) :
    Answers known createBy (after known calls) (Ownership.after known calls) :=
  (represents_after calls).answers createBy

end MappedMsgFactory

end Domq.Netmgr
