/-
# The server's accept loop (`atlasdb/net/tcp_server.h`)

The constructor of `tcp_server` starts an asynchronous accept into a new connection;
`handle_accept` puts the accepted connection into the pool and starts the next accept.
`TcpServer.step` delivers the completion of the oldest outstanding accept to the
handler that was bound to it.

Two properties of the loop are settled here, each with the exact condition under which
the code has it:

* `oneOutstanding_iff` : an accept is outstanding after each handler exactly as long as
  no accept has failed, since the handler returns early on an error;
* `onePerClient_iff` : there is one connection object per client only as long as there
  is no client, since the handler starts the next accept on the connection that it has
  just put into the pool (`run_accepts`).  The first client makes the next accept an old one
  (`fresh_iff`), the second one shares its connection with the first (`pooled_iff`).
-/
import Atlasdb.StepRun
import Atlasdb.ConnectionPool

/-- An `std::error_code`; it converts to `true` when its value is not 0. -/
structure ErrorCode where
  value : ℤ
  deriving DecidableEq, Repr

namespace ErrorCode

/-- The error code of a success. -/
def success : ErrorCode := ⟨0⟩

/-- `operator bool`. -/
def isError (e : ErrorCode) : Bool := e.value ≠ 0

end ErrorCode

/-- An asynchronous accept: the connection whose socket it fills, and the connection
bound into its handler. -/
structure AcceptOp where
  socket : Connection
  bound : Connection
  deriving DecidableEq, Repr

variable {Endpoint : Type}

/-- The server: the endpoint and the state of its acceptor, the accepts that were started
and are not completed, and the pool.  The history variable `accepted` lists the connections
that clients were accepted into. -/
structure TcpServer (box : ConcurrentBox Endpoint Connection) where
  endpoint : Endpoint
  isOpen : Bool
  outstanding : List AcceptOp
  pool : box.Store
  accepted : List Connection

namespace TcpServer

variable {box : ConcurrentBox Endpoint Connection}

/-! ## The class -/

/-- `_acceptor.async_accept(c->socket(), handler)` with `handler` bound to `c`. -/
def asyncAccept (s : TcpServer box) (c : Connection) : TcpServer box :=
  { s with outstanding := s.outstanding ++ [⟨c, c⟩] }

/-- The constructor, on an acceptor bound to the endpoint and with an empty pool. -/
def init (box : ConcurrentBox Endpoint Connection) (endpoint : Endpoint) : TcpServer box :=
  -- `new connection` makes the object with address 0, and nothing else allocates one
  asyncAccept
    { endpoint := endpoint, isOpen := true, outstanding := [], pool := box.empty, accepted := [] } 0

/-- `handle_accept(c, e)`.  Accepted sockets report the endpoint of the acceptor. -/
def handleAccept (s : TcpServer box) (c : Connection) (e : ErrorCode) : TcpServer box :=
  if e.isError then s
  else asyncAccept { s with pool := ConnectionPool.put box s.pool (fun _ => s.endpoint) c } c

/-- `handle_stop()`. -/
def handleStop (s : TcpServer box) : TcpServer box := { s with isOpen := false }

/-- An event of the server's loop. -/
inductive Event where
  | accepted (e : ErrorCode)
  | stop
  deriving DecidableEq, Repr

/-- One event.  An accept completes at most once, and after `close` only with an error. -/
def step (s : TcpServer box) : Event → Option (TcpServer box)
  | .accepted e =>
      match s.outstanding with
      | [] => none
      | op :: rest =>
          if e.isError then some (handleAccept { s with outstanding := rest } op.bound e)
          else if s.isOpen then
            some (handleAccept { s with outstanding := rest, accepted := s.accepted ++ [op.socket] }
              op.bound e)
          else none
  | .stop => some s.handleStop

/-! ## An accept is always outstanding -/

/-- Exactly one asynchronous accept is outstanding on the acceptor. -/
def OneOutstanding (s : TcpServer box) : Prop := s.outstanding.length = 1

/-- A successful completion is followed by the next accept, on the same connection. -/
theorem step_success {s : TcpServer box} {op : AcceptOp} (hop : s.outstanding = [op])
    (hopen : s.isOpen = true) {e : ErrorCode} (he : e.isError = false) :
    s.step (.accepted e) = some
      { s with
        outstanding := [⟨op.bound, op.bound⟩]
        pool := box.put s.pool s.endpoint op.bound
        accepted := s.accepted ++ [op.socket] } := by
  rw [step, hop]
  simp [he, hopen, handleAccept, asyncAccept, ConnectionPool.put]

/-- A failed completion is not followed by another accept. -/
theorem step_error {s : TcpServer box} {op : AcceptOp} (hop : s.outstanding = [op])
    {e : ErrorCode} (he : e.isError = true) :
    s.step (.accepted e) = some { s with outstanding := [] } := by
  rw [step, hop]
  simp [he, handleAccept]

/-- From a state with one outstanding accept on, an accept is outstanding after each handler
exactly when every completion is a success. -/
theorem always_oneOutstanding_iff (es : List ErrorCode) {s : TcpServer box} {op : AcceptOp}
    (hop : s.outstanding = [op]) (hopen : s.isOpen = true) :
    StepRun.Always step OneOutstanding s (es.map Event.accepted) ↔
      ∀ e ∈ es, e.isError = false := by
  have hone : OneOutstanding s := by rw [OneOutstanding, hop]; rfl
  induction es generalizing s op with
  | nil => simp [StepRun.always_nil, hone]
  | cons e es ih =>
      rw [List.map_cons, StepRun.always_cons]
      cases he : e.isError with
      | true =>
          constructor
          · rintro ⟨-, hrest⟩
            have hzero : OneOutstanding ({ s with outstanding := [] } : TcpServer box) :=
              hrest _ (step_error hop he) [] List.nil_prefix _ rfl
            exact absurd hzero (by simp [OneOutstanding])
          · intro hall
            rw [hall e List.mem_cons_self] at he
            exact absurd he (by decide)
      | false =>
          -- the handler has started the next accept, on the same connection
          let s' : TcpServer box :=
            { s with
              outstanding := [⟨op.bound, op.bound⟩]
              pool := box.put s.pool s.endpoint op.bound
              accepted := s.accepted ++ [op.socket] }
          have hout : s'.outstanding = [⟨op.bound, op.bound⟩] := rfl
          have hnext : StepRun.Always step OneOutstanding s' (es.map Event.accepted) ↔
              ∀ e ∈ es, e.isError = false := ih hout hopen rfl
          rw [List.forall_mem_cons, ← hnext, step_success hop hopen he]
          simp [hone, he, s']

/-- **When an accept is always outstanding.**  Over every sequence of completions, one
accept is outstanding after each handler exactly when every completion is a success. -/
theorem oneOutstanding_iff (box : ConcurrentBox Endpoint Connection) (endpoint : Endpoint)
    (es : List ErrorCode) :
    StepRun.Always step OneOutstanding (init box endpoint) (es.map Event.accepted) ↔
      ∀ e ∈ es, e.isError = false :=
  always_oneOutstanding_iff es rfl rfl

/-- The server's first accept fails, since the process has no file descriptor left
(error 24): no accept is outstanding afterwards. -/
theorem not_oneOutstanding_single :
    ¬ ∀ es : List ErrorCode, StepRun.Always step OneOutstanding
      (init (ConcurrentBox.overwriting ℕ Connection) 80) (es.map Event.accepted) := by
  intro hall
  have hlost := hall [⟨24⟩] [.accepted ⟨24⟩] List.prefix_rfl _ rfl
  exact absurd hlost Nat.zero_ne_one

/-! ## One connection per client -/

/-- The state after `n` successful accepts. -/
def afterAccepts (box : ConcurrentBox Endpoint Connection) (endpoint : Endpoint) (n : ℕ) :
    Option (TcpServer box) :=
  StepRun.run step (init box endpoint) (List.replicate n (.accepted .success))

/-- The connection of every outstanding accept is new: it is not in the pool, and no
client has been accepted into it. -/
def FreshAccept (s : TcpServer box) : Prop :=
  ∀ op ∈ s.outstanding, ¬ box.Holds s.pool op.socket ∧ op.socket ∉ s.accepted

/-- The pool holds the connections of `n` clients, all different. -/
def Pooled (s : TcpServer box) (n : ℕ) : Prop :=
  s.accepted.length = n ∧ s.accepted.Nodup ∧ ∀ c ∈ s.accepted, box.Holds s.pool c

/-- **One connection object per client.**  After each of `n` successful accepts the next
one is started on a new connection, and at the end the pool holds one connection for each
client. -/
def OnePerClient (box : ConcurrentBox Endpoint Connection) (endpoint : Endpoint) (n : ℕ) : Prop :=
  (∀ k ≤ n, ∀ s ∈ afterAccepts box endpoint k, FreshAccept s) ∧
    ∃ s ∈ afterAccepts box endpoint n, Pooled s n

/-- **Run lemma.**  After any number of accepts the one connection that the constructor
made is the one that the next accept is started on and the one that every client was
accepted into, and nothing else is in the pool. -/
theorem run_accepts (box : ConcurrentBox Endpoint Connection) (endpoint : Endpoint) (n : ℕ) :
    ∃ s, afterAccepts box endpoint n = some s ∧ s.endpoint = endpoint ∧ s.isOpen = true ∧
      s.outstanding = [⟨0, 0⟩] ∧ s.accepted = List.replicate n 0 ∧
      ∀ c, box.Holds s.pool c → c = 0 := by
  induction n with
  | zero =>
      exact ⟨init box endpoint, rfl, rfl, rfl, rfl, rfl,
        fun c hc => absurd hc (box.not_holds_empty c)⟩
  | succ n ih =>
      obtain ⟨s, hs, hend, hopen, hout, hacc, hpool⟩ := ih
      have hstep := step_success hout hopen (e := .success) rfl
      refine ⟨{ s with
        outstanding := [⟨0, 0⟩]
        pool := box.put s.pool s.endpoint 0
        accepted := s.accepted ++ [0] }, ?_, hend, hopen, rfl, ?_, ?_⟩
      · rw [afterAccepts, List.replicate_succ', StepRun.run_append, ← afterAccepts, hs,
          Option.bind_some, StepRun.run_cons, hstep]
        rfl
      · show s.accepted ++ [0] = List.replicate (n + 1) 0
        rw [hacc, List.replicate_succ']
      · intro c hc
        rcases box.holds_of_holds_put hc with rfl | hc
        · rfl
        · exact hpool c hc

/-- The accept that is outstanding after `n` accepts is a new one only before the first client. -/
theorem fresh_iff (box : ConcurrentBox Endpoint Connection) (endpoint : Endpoint) (n : ℕ) :
    (∀ s ∈ afterAccepts box endpoint n, FreshAccept s) ↔ n = 0 := by
  obtain ⟨s, hs, -, -, hout, hacc, hpool⟩ := run_accepts box endpoint n
  constructor
  · intro hfresh
    by_contra hn
    have hmem : (⟨0, 0⟩ : AcceptOp) ∈ s.outstanding := by
      rw [hout]
      exact List.mem_singleton_self _
    have hnew : 0 ∉ s.accepted := (hfresh s hs ⟨0, 0⟩ hmem).2
    rw [hacc] at hnew
    exact hnew (List.mem_replicate.mpr ⟨hn, rfl⟩)
  · rintro rfl s' hs' op -
    obtain rfl := Option.some.inj hs'
    exact ⟨box.not_holds_empty op.socket, List.not_mem_nil⟩

/-- The connection that the clients were accepted into is in the pool as soon as there is one. -/
theorem holds_zero (box : ConcurrentBox Endpoint Connection) (endpoint : Endpoint) :
    ∀ s ∈ afterAccepts box endpoint 1, box.Holds s.pool 0 := by
  intro s hs
  obtain rfl := Option.some.inj hs
  rcases box.get_put_of_free (box.get_empty endpoint) 0 endpoint with ⟨-, hput⟩ | ⟨hne, -⟩
  · exact ⟨endpoint, hput⟩
  · exact absurd rfl hne

/-- The pool holds a connection for each of `n` clients only up to the first client, as the later
ones are accepted into the same connection. -/
theorem pooled_iff (box : ConcurrentBox Endpoint Connection) (endpoint : Endpoint) (n : ℕ) :
    (∃ s ∈ afterAccepts box endpoint n, Pooled s n) ↔ n ≤ 1 := by
  obtain ⟨s, hs, -, -, -, hacc, -⟩ := run_accepts box endpoint n
  constructor
  · rintro ⟨s', hs', -, hnodup, -⟩
    obtain rfl : s = s' := Option.some.inj (hs.symm.trans hs')
    rw [hacc] at hnodup
    exact List.nodup_replicate.mp hnodup
  · intro hn
    refine ⟨s, hs, ?_, ?_, ?_⟩
    · rw [hacc, List.length_replicate]
    · rw [hacc]
      exact List.nodup_replicate.mpr hn
    · intro c hc
      rw [hacc] at hc
      obtain ⟨hpos, rfl⟩ := List.mem_replicate.mp hc
      obtain rfl : n = 1 := Nat.le_antisymm hn (Nat.one_le_iff_ne_zero.mpr hpos)
      exact holds_zero box endpoint s hs

/-- **When there is one connection per client.**  Only as long as no client has come. -/
theorem onePerClient_iff (box : ConcurrentBox Endpoint Connection) (endpoint : Endpoint) (n : ℕ) :
    OnePerClient box endpoint n ↔ n = 0 := by
  unfold OnePerClient
  simp only [fresh_iff, pooled_iff]
  constructor
  · rintro ⟨hfresh, -⟩
    exact hfresh n le_rfl
  · rintro rfl
    exact ⟨fun k hk => Nat.le_zero.mp hk, Nat.zero_le 1⟩

/-- One client is accepted: the next accept is started on the connection of that client. -/
theorem not_onePerClient_one :
    ¬ ∀ n, OnePerClient (ConcurrentBox.overwriting ℕ Connection) 80 n := by
  intro hall
  have hfresh := (hall 1).1 1 le_rfl _ rfl ⟨0, 0⟩ (by decide)
  exact absurd hfresh.2 (by decide)

end TcpServer
