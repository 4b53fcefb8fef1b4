import Onced.Core.State

/-! # Stores of idempotency-key records

A store holds the current state of every key. A call takes `&mut self` and may
panic on an I/O failure; the state it had reached is kept when the panic is
caught, so calls run in a state monad that keeps its state on an error. What
the operating system makes of a call's I/O is an argument of the call.
-/

namespace Onced

/-- The message of a panic. -/
abbrev Panic := String

/-- What becomes of the bytes one call appends to the log. -/
inductive Append where
  /-- Every byte is written and synced. -/
  | done
  /-- The write ends after `written` bytes. -/
  | stops (written : Nat)
  /-- Every byte is written, but the sync fails. -/
  | unsynced
  deriving DecidableEq

/-- What may fail while a rewritten log is prepared and renamed. -/
inductive Staging where
  | opens
  | writes
  | syncs
  | renames
  deriving DecidableEq

/-- What may fail once it is renamed. -/
inductive Reopening where
  | opens
  | seeks
  deriving DecidableEq

/-- What becomes of the atomic rename that commits a rewritten log. -/
inductive Commit where
  | done
  /-- The call ends before the rename: the old log stands. -/
  | beforeRename (failure : Staging)
  /-- The call ends after the rename: the new log stands. -/
  | afterRename (failure : Reopening)
  deriving DecidableEq

/-- What the operating system makes of the I/O of one call. -/
structure Io where
  append : Append
  commit : Commit
  deriving DecidableEq

/-- Everything the call asks for is done. -/
def Io.done : Io := ⟨.done, .done⟩

/-- The order in which a hash map happens to be iterated. -/
structure Iteration where
  order : List Entry → List Entry
  perm : ∀ entries, (order entries).Perm entries

/-- Iterate in the order in which entries are listed. -/
def Iteration.listed : Iteration := ⟨id, fun _ => List.Perm.refl _⟩

/-- A shard's worth of idempotency-key records. The defaults are those of
stores that start empty and have nothing to sync or reclaim. -/
class Store (σ : Type) where
  get : σ → IdempotencyKey → Option KeyState
  put : Io → IdempotencyKey → KeyState → EStateM Panic σ Unit
  maxInProgressFence : σ → UInt64 := fun _ => 0
  flush : Io → EStateM Panic σ Unit := fun _ => pure ()
  compact : Io → Iteration → (IdempotencyKey → KeyState → Bool) → EStateM Panic σ Unit :=
    fun _ _ _ => pure ()

/-- One call on a store. -/
inductive StoreCall where
  | put (key : IdempotencyKey) (state : KeyState)
  | flush
  | compact (iteration : Iteration) (keep : IdempotencyKey → KeyState → Bool)

def StoreCall.run {σ : Type} [Store σ] (io : Io) : StoreCall → EStateM Panic σ Unit
  | .put key state => Store.put io key state
  | .flush => Store.flush io
  | .compact iteration keep => Store.compact io iteration keep

/-- What a call that returns does to the state of one key. -/
def StoreCall.effect (key : IdempotencyKey) (current : Option KeyState) :
    StoreCall → Option KeyState
  | .put written state => if written = key then some state else current
  | .flush => current
  | .compact _ keep => current.filter (keep key)

/-- After a put the written key holds what was put, and every other key what it held. -/
theorem StoreCall.effect_put_eq_some {written key : IdempotencyKey} {fresh state : KeyState}
    {current : Option KeyState} (heffect : (put written fresh).effect key current = some state) :
    written = key ∧ fresh = state ∨ written ≠ key ∧ current = some state := by
  simp only [effect] at heffect
  split at heffect
  next hkey => exact Or.inl ⟨hkey, Option.some.inj heffect⟩
  next hkey => exact Or.inr ⟨hkey, heffect⟩

/-- What a key holds after a call was put there by it, or was there before. -/
theorem StoreCall.effect_eq_some {storeCall : StoreCall} {key : IdempotencyKey}
    {current : Option KeyState} {state : KeyState}
    (heffect : storeCall.effect key current = some state) :
    storeCall = .put key state ∨ current = some state := by
  cases storeCall with
  | put written fresh =>
      rcases effect_put_eq_some heffect with ⟨rfl, rfl⟩ | ⟨-, hkept⟩
      · exact Or.inl rfl
      · exact Or.inr hkept
  | flush => exact Or.inr heffect
  | compact iteration keep => exact Or.inr (Option.filter_eq_some_iff.mp heffect).1

/-- What the engine relies on: when I/O succeeds, every call returns and acts
on the visible states as on a plain map. -/
class LawfulStore (σ : Type) [Store σ] : Prop where
  run_done : ∀ (call : StoreCall) (store : σ), ∃ next, call.run .done store = .ok () next ∧
    ∀ key, Store.get next key = call.effect key (Store.get store key)

/-- An in-memory store. -/
structure MemoryStore where
  keys : Index

namespace MemoryStore

def new : MemoryStore := ⟨∅⟩

instance : Store MemoryStore where
  get store key := store.keys[key]?
  put _ key state := modify fun store => ⟨store.keys.insert key state⟩
  compact _ _ keep := modify fun store => ⟨store.keys.filter keep⟩

@[simp] theorem get_eq (store : MemoryStore) (key : IdempotencyKey) :
    Store.get store key = store.keys[key]? := rfl

@[simp] theorem put_eq (io : Io) (key : IdempotencyKey) (state : KeyState) (store : MemoryStore) :
    Store.put io key state store = .ok () ⟨store.keys.insert key state⟩ := rfl

@[simp] theorem flush_eq (io : Io) (store : MemoryStore) :
    Store.flush io store = .ok () store := rfl

@[simp] theorem compact_eq (io : Io) (iteration : Iteration)
    (keep : IdempotencyKey → KeyState → Bool) (store : MemoryStore) :
    Store.compact io iteration keep store = .ok () ⟨store.keys.filter keep⟩ := rfl

instance : LawfulStore MemoryStore where
  run_done call store := by
    cases call with
    | put key state => exact ⟨_, rfl, fun other => Index.getElem?_insert store.keys key other state⟩
    | flush => exact ⟨_, rfl, fun _ => rfl⟩
    | compact iteration keep => exact ⟨_, rfl, fun _ => Std.ExtTreeMap.getElem?_filter'⟩

end MemoryStore

end Onced
