/-
# The connection pool (`atlasdb/net/connection_pool.h`)

`connection_pool` keeps connections in a `blocking_concurrent_box` under their local
endpoints.  The box is not part of the repository; `ConcurrentBox` states what the
pool relies on: it is a map from keys to values, and after a `put` on a key that was
taken one of the two values is there.
-/
import Mathlib

/-- A concurrent box as a map: its states, `put`, and the value under a key. -/
structure ConcurrentBox (Key Value : Type) where
  Store : Type
  empty : Store
  get : Store → Key → Option Value
  put : Store → Key → Value → Store
  get_empty : ∀ k, get empty k = none
  get_put_of_ne : ∀ s k k' v, k' ≠ k → get (put s k v) k' = get s k'
  /-- A put on a free key stores the value; on a taken key one of the two values stays. -/
  get_put_self : ∀ s k v, get (put s k v) k = some v ∨
    ((get s k).isSome ∧ get (put s k v) k = get s k)

namespace ConcurrentBox

variable {Key Value : Type}

/-- The box that overwrites, on functions with decidable keys. -/
def overwriting (Key Value : Type) [DecidableEq Key] : ConcurrentBox Key Value where
  Store := Key → Option Value
  empty := fun _ => none
  get := fun s k => s k
  put := fun s k v => Function.update s k (some v)
  get_empty := fun _ => rfl
  get_put_of_ne := fun s _ _ v h => Function.update_of_ne h (some v) s
  get_put_self := fun s k v => Or.inl (Function.update_self k (some v) s)

variable (box : ConcurrentBox Key Value)

/-- The value is in the box, under some key. -/
def Holds (s : box.Store) (v : Value) : Prop := ∃ k, box.get s k = some v

/-- Nothing is in the empty box. -/
theorem not_holds_empty (v : Value) : ¬ box.Holds box.empty v := by
  rintro ⟨k, hk⟩
  rw [box.get_empty] at hk
  exact absurd hk (by simp)

/-- After a `put` the box holds the new value or values it held before. -/
theorem holds_of_holds_put {s : box.Store} {k : Key} {v v' : Value}
    (h : box.Holds (box.put s k v) v') : v' = v ∨ box.Holds s v' := by
  obtain ⟨k', hk'⟩ := h
  by_cases hkey : k' = k
  · subst hkey
    rcases box.get_put_self s k' v with hput | ⟨-, hput⟩
    · rw [hput] at hk'
      exact Or.inl (Option.some.inj hk').symm
    · rw [hput] at hk'
      exact Or.inr ⟨k', hk'⟩
  · rw [box.get_put_of_ne s k k' v hkey] at hk'
    exact Or.inr ⟨k', hk'⟩

/-- A `put` on a free key stores the value there and leaves the other keys alone. -/
theorem get_put_of_free {s : box.Store} {k : Key} (hfree : box.get s k = none) (v : Value)
    (k' : Key) : (k' = k ∧ box.get (box.put s k v) k' = some v) ∨
      (k' ≠ k ∧ box.get (box.put s k v) k' = box.get s k') := by
  by_cases hkey : k' = k
  · subst hkey
    rcases box.get_put_self s k' v with hput | ⟨htaken, -⟩
    · exact Or.inl ⟨rfl, hput⟩
    · rw [hfree] at htaken
      exact absurd htaken Bool.false_ne_true
  · exact Or.inr ⟨hkey, box.get_put_of_ne s k k' v hkey⟩

end ConcurrentBox

/-- A connection object, by its address. -/
abbrev Connection := ℕ

namespace ConnectionPool

variable {Endpoint : Type} (box : ConcurrentBox Endpoint Connection)

/-- `connection_pool::put(conn)`, with what `conn->socket().local_endpoint()` answers. -/
def put (connections : box.Store) (localEndpoint : Connection → Endpoint) (conn : Connection) :
    box.Store :=
  box.put connections (localEndpoint conn) conn

end ConnectionPool
