/-
# Connecting clients (`atlasdb/net/tcp_client.h`)

The constructor of `tcp_client` starts an asynchronous connect, and `handle_connect` puts
the connection into the pool that all clients share.  On an error its comment says that it
returns, but nothing does, so that the failed connection is put into the pool as well:
`poolExact_iff` says that the pool holds the successful connections exactly as long as no
connect has failed.
-/
import Atlasdb.TcpServer

variable {Endpoint : Type}

/-- The clients of one program: the number of connections made so far, which are numbered in
order, those whose connect is outstanding, and the pool.  The history variable `succeeded`
lists the connections whose connect has succeeded. -/
structure TcpClients (box : ConcurrentBox Endpoint Connection) where
  next : Connection
  outstanding : List Connection
  pool : box.Store
  succeeded : List Connection

namespace TcpClients

variable {box : ConcurrentBox Endpoint Connection}

/-! ## The class -/

/-- No clients, and an empty pool. -/
def init (box : ConcurrentBox Endpoint Connection) : TcpClients box := ⟨0, [], box.empty, []⟩

/-- The constructor of `tcp_client`, which makes a connection and starts its connect. -/
def connect (s : TcpClients box) : TcpClients box :=
  { s with next := s.next + 1, outstanding := s.outstanding ++ [s.next] }

/-- `handle_connect(c, e)`, with what `c->socket().local_endpoint()` answers. -/
def handleConnect (localEndpoint : Connection → Endpoint) (s : TcpClients box) (c : Connection)
    (e : ErrorCode) : TcpClients box :=
  -- the branch for an error holds a comment and no statement
  let s := if e.isError then s else s
  { s with pool := ConnectionPool.put box s.pool localEndpoint c }

/-- Whatever the error code, the connection is put into the pool. -/
theorem handleConnect_eq (localEndpoint : Connection → Endpoint) (s : TcpClients box)
    (c : Connection) (e : ErrorCode) :
    handleConnect localEndpoint s c e = { s with pool := box.put s.pool (localEndpoint c) c } := by
  unfold handleConnect
  rw [ite_self]
  rfl

/-- An event of the program. -/
inductive Event where
  | connect
  | completed (c : Connection) (e : ErrorCode)
  deriving DecidableEq, Repr

variable (localEndpoint : Connection → Endpoint)

/-- One event.  The connects complete in any order, each at most once; a new connection gets
a local endpoint that none of the others has. -/
def step [DecidableEq Endpoint] (s : TcpClients box) : Event → Option (TcpClients box)
  | .connect =>
      if ∀ c < s.next, localEndpoint c ≠ localEndpoint s.next then some s.connect else none
  | .completed c e =>
      if c ∈ s.outstanding then
        some (handleConnect localEndpoint
          { s with
            outstanding := s.outstanding.erase c
            succeeded := if e.isError then s.succeeded else s.succeeded ++ [c] } c e)
      else none

/-! ## What is in the pool -/

/-- The pool holds exactly the connections whose connect has succeeded. -/
def PoolExact (s : TcpClients box) : Prop := ∀ c, box.Holds s.pool c ↔ c ∈ s.succeeded

/-- The connects are told apart by their connections, the connections by their endpoints, and
the pool has the successful ones under theirs. -/
structure Exact (s : TcpClients box) : Prop where
  distinct : ∀ c < s.next, ∀ c' < s.next, localEndpoint c = localEndpoint c' → c = c'
  outstanding_lt : ∀ c ∈ s.outstanding, c < s.next
  succeeded_lt : ∀ c ∈ s.succeeded, c < s.next
  nodup : s.outstanding.Nodup
  disjoint : ∀ c ∈ s.succeeded, c ∉ s.outstanding
  get_eq : ∀ k c, box.get s.pool k = some c ↔ c ∈ s.succeeded ∧ localEndpoint c = k

variable {localEndpoint}

/-- Initially there is nothing. -/
theorem init_exact : Exact localEndpoint (init box) where
  distinct := fun c hc => absurd hc (Nat.not_lt_zero c)
  outstanding_lt := fun c hc => absurd hc List.not_mem_nil
  succeeded_lt := fun c hc => absurd hc List.not_mem_nil
  nodup := List.nodup_nil
  disjoint := fun c hc => absurd hc List.not_mem_nil
  get_eq := fun k c => by
    show box.get box.empty k = some c ↔ c ∈ [] ∧ localEndpoint c = k
    rw [box.get_empty]
    simp

namespace Exact

variable {s s' : TcpClients box} {c : Connection}

/-- Then the pool holds what it should. -/
theorem poolExact (h : Exact localEndpoint s) : PoolExact s := by
  intro c
  constructor
  · rintro ⟨k, hk⟩
    exact ((h.get_eq k c).mp hk).1
  · intro hc
    exact ⟨localEndpoint c, (h.get_eq _ c).mpr ⟨hc, rfl⟩⟩

/-- The endpoint of an outstanding connection is free in the pool. -/
theorem get_outstanding (h : Exact localEndpoint s) (hc : c ∈ s.outstanding) :
    box.get s.pool (localEndpoint c) = none := by
  by_contra hne
  obtain ⟨c', hc'⟩ := Option.ne_none_iff_exists'.mp hne
  obtain ⟨hsucceeded, hsame⟩ := (h.get_eq _ c').mp hc'
  obtain rfl : c' = c :=
    h.distinct c' (h.succeeded_lt c' hsucceeded) c (h.outstanding_lt c hc) hsame
  exact h.disjoint c' hsucceeded hc

/-- When an outstanding connection is put into the pool, it is in there besides the
successful ones. -/
theorem get_put_iff (h : Exact localEndpoint s) (hc : c ∈ s.outstanding) (k : Endpoint)
    (c' : Connection) : box.get (box.put s.pool (localEndpoint c) c) k = some c' ↔
      (c' ∈ s.succeeded ∨ c' = c) ∧ localEndpoint c' = k := by
  rcases box.get_put_of_free (h.get_outstanding hc) c k with ⟨rfl, hput⟩ | ⟨hne, hput⟩
  · -- no other connection has this endpoint
    rw [hput, Option.some.injEq]
    constructor
    · rintro rfl
      exact ⟨Or.inr rfl, rfl⟩
    · rintro ⟨hmem | rfl, hsame⟩
      · exact (h.distinct c' (h.succeeded_lt c' hmem) c (h.outstanding_lt c hc) hsame).symm
      · rfl
  · rw [hput, h.get_eq]
    constructor
    · rintro ⟨hmem, hsame⟩
      exact ⟨Or.inl hmem, hsame⟩
    · rintro ⟨hmem | rfl, hsame⟩
      · exact ⟨hmem, hsame⟩
      · exact absurd hsame.symm hne

/-- A new connect is told apart from the others. -/
theorem connect (h : Exact localEndpoint s)
    (hnew : ∀ c < s.next, localEndpoint c ≠ localEndpoint s.next) :
    Exact localEndpoint s.connect where
  distinct := by
    intro c hc c' hc' hsame
    rcases Nat.lt_succ_iff_lt_or_eq.mp hc with hlt | rfl
    · rcases Nat.lt_succ_iff_lt_or_eq.mp hc' with hlt' | rfl
      · exact h.distinct c hlt c' hlt' hsame
      · exact absurd hsame (hnew c hlt)
    · rcases Nat.lt_succ_iff_lt_or_eq.mp hc' with hlt' | rfl
      · exact absurd hsame.symm (hnew c' hlt')
      · rfl
  outstanding_lt := by
    intro c hc
    rcases List.mem_append.mp hc with hc | hc
    · exact (h.outstanding_lt c hc).trans (Nat.lt_succ_self s.next)
    · rw [List.mem_singleton.mp hc]
      exact Nat.lt_succ_self s.next
  succeeded_lt := fun c hc => (h.succeeded_lt c hc).trans (Nat.lt_succ_self s.next)
  nodup := by
    refine List.nodup_append.mpr ⟨h.nodup, List.nodup_singleton s.next, ?_⟩
    rintro c hc c' hc' rfl
    rw [List.mem_singleton.mp hc'] at hc
    exact absurd (h.outstanding_lt s.next hc) (Nat.lt_irrefl _)
  disjoint := by
    intro c hc hmem
    rcases List.mem_append.mp hmem with hmem | hmem
    · exact h.disjoint c hc hmem
    · rw [List.mem_singleton.mp hmem] at hc
      exact absurd (h.succeeded_lt s.next hc) (Nat.lt_irrefl _)
  get_eq := h.get_eq

/-- A successful completion puts its connection into the pool. -/
theorem completed (h : Exact localEndpoint s) (hc : c ∈ s.outstanding) (e : ErrorCode) :
    Exact localEndpoint (handleConnect localEndpoint
      { s with outstanding := s.outstanding.erase c, succeeded := s.succeeded ++ [c] } c e) := by
  rw [handleConnect_eq]
  refine ⟨h.distinct, fun c' hc' => h.outstanding_lt c' (List.mem_of_mem_erase hc'), ?_,
    h.nodup.erase c, ?_, fun k c' => ?_⟩
  · intro c' hc'
    rcases List.mem_append.mp hc' with hc' | hc'
    · exact h.succeeded_lt c' hc'
    · rw [List.mem_singleton.mp hc']
      exact h.outstanding_lt c hc
  · intro c' hc' hmem
    rcases List.mem_append.mp hc' with hc' | hc'
    · exact h.disjoint c' hc' (List.mem_of_mem_erase hmem)
    · rw [List.mem_singleton.mp hc'] at hmem
      exact h.nodup.not_mem_erase hmem
  · show box.get (box.put s.pool (localEndpoint c) c) k = some c' ↔
      c' ∈ s.succeeded ++ [c] ∧ localEndpoint c' = k
    rw [h.get_put_iff hc, List.mem_append, List.mem_singleton]

/-- A failed completion puts its connection into the pool as well. -/
theorem not_poolExact (h : Exact localEndpoint s) (hc : c ∈ s.outstanding) (e : ErrorCode) :
    ¬ PoolExact (handleConnect localEndpoint
      { s with outstanding := s.outstanding.erase c } c e) := by
  rw [handleConnect_eq]
  intro hexact
  have hin := (h.get_put_iff hc (localEndpoint c) c).mpr ⟨Or.inr rfl, rfl⟩
  exact h.disjoint c ((hexact c).mp ⟨localEndpoint c, hin⟩) hc

end Exact

/-! ## Whole runs -/

/-- The event is no completion with an error. -/
def NoError (s : TcpClients box) : Event → Prop
  | .connect => True
  | .completed c e => c ∈ s.outstanding → e.isError = false

/-- **When the pool holds exactly the connections that succeeded.**  For every box and every
sequence of connects and completions, in every state on the way: if and only if every
completion that is delivered is a success. -/
theorem poolExact_iff [DecidableEq Endpoint] (box : ConcurrentBox Endpoint Connection)
    (localEndpoint : Connection → Endpoint) (events : List Event) :
    StepRun.Always (step localEndpoint) PoolExact (init box) events ↔
      StepRun.Guarded (step localEndpoint) NoError (init box) events := by
  have hinit : Exact localEndpoint (init box) := init_exact
  refine StepRun.always_iff_guarded (fun s h => Exact.poolExact h) ?_ ?_ hinit
  · intro s event s' h hcond hstep
    cases event with
    | connect =>
        rw [step] at hstep
        split_ifs at hstep with hnew
        obtain rfl := Option.some.inj hstep
        exact h.connect hnew
    | completed c e =>
        rw [step] at hstep
        split_ifs at hstep with hc he
        · exact absurd (hcond hc) (by rw [he]; decide)
        · obtain rfl := Option.some.inj hstep
          exact h.completed hc e
  · intro s event h hcond
    cases event with
    | connect => exact absurd trivial hcond
    | completed c e =>
        obtain ⟨hc, he⟩ := Classical.not_imp.mp hcond
        rw [Bool.not_eq_false] at he
        refine ⟨_, by rw [step, if_pos hc], ?_⟩
        rw [if_pos he]
        exact h.not_poolExact hc e

/-- A refused connect leaves its connection in the pool. -/
theorem not_poolExact_refused :
    ¬ ∀ (box : ConcurrentBox ℕ Connection) (localEndpoint : Connection → ℕ)
      (events : List Event),
      StepRun.Always (step localEndpoint) PoolExact (init box) events := by
  intro hall
  let box := ConcurrentBox.overwriting ℕ Connection
  have hrun : StepRun.run (step id) (init box) [.connect, .completed 0 ⟨111⟩]
      = some ⟨1, [], box.put box.empty 0 0, []⟩ := by rfl
  have hexact := hall box id [.connect, .completed 0 ⟨111⟩] _ List.prefix_rfl _ hrun
  exact List.not_mem_nil ((hexact 0).mp ⟨0, rfl⟩)

end TcpClients
