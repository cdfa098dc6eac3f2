/-
# The task runner (`atlasdb/system/task.h`)

`task_runner` keeps a queue of tasks; `run` hands `do_run` to a worker pool, which
executes it at some later time.  The machine `State.step` interleaves calls of
`enqueue` with executions of `do_run` in any order, `task::paused` answering anything
at each check.

The property is conservation of tasks: each non-empty task is either queued once and
not yet invoked, or has left the queue and was invoked once.  `do_run` takes a task
off the queue and puts it back when it is paused, but no path of it invokes the
function of the task.  So `conserved_iff_keepsTask` : tasks are conserved along a run
exactly when every `do_run` of the run finds an empty task or a paused one.
-/
import Atlasdb.StepRun

namespace TaskRunner

/-! ## The classes -/

/-- `task`: its identifier and its function, `none` for an empty `std::function`.  The
`serial` is a history variable, the number of the `enqueue` call that brought the task. -/
structure Task (Uuid Job : Type*) where
  serial : ℕ
  id : Uuid
  fn : Option Job
  deriving DecidableEq

variable {Uuid Job : Type*}

/-- What one execution of `do_run` does: the queue it leaves, the tasks that it invokes
by `task::operator()`, and the identifier that it returns, `none` for its `return 0`.  The
source returns a reference to its local copy of the identifier, which has ended by then;
`returned` is the value of that copy, and nothing below reads it. -/
structure DoRun (Uuid Job : Type*) where
  tasks : List (Task Uuid Job)
  invoked : List ℕ
  returned : Option Uuid

/-- `task_runner::do_run`, with the answer of `task::paused`; `none` is the undefined
`front()` of an empty queue. -/
def doRun (tasks : List (Task Uuid Job)) (paused : Bool) : Option (DoRun Uuid Job) :=
  match tasks with
  | [] => none
  | task :: rest =>
      if task.fn.isNone then some { tasks := rest, invoked := [], returned := none }
      else if paused then
        -- `suspend` pushes the task again, at the back of the queue
        some { tasks := rest ++ [task], invoked := [], returned := some task.id }
      else some { tasks := rest, invoked := [], returned := some task.id }

/-! ## Interleavings of `enqueue` and `do_run` -/

/-- One step of an interleaving. -/
inductive Step (Uuid Job : Type*) where
  | enqueue (id : Uuid) (fn : Option Job)
  | doRun (paused : Bool)

/-- The queue of the runner, with two history variables: the tasks that were ever
enqueued, and the serials of the tasks that were invoked. -/
structure State (Uuid Job : Type*) where
  tasks : List (Task Uuid Job)
  enqueued : List (Task Uuid Job)
  invoked : List ℕ

namespace State

/-- A new runner. -/
def init : State Uuid Job := ⟨[], [], []⟩

/-- One step; `do_run` is stuck on an empty queue.  The queue has no lock: that no other call
falls between the `front`, the `pop` and the `push` of one `do_run` is assumed. -/
def step (s : State Uuid Job) : Step Uuid Job → Option (State Uuid Job)
  | .enqueue id fn =>
      let task := ⟨s.enqueued.length, id, fn⟩
      some { s with tasks := s.tasks ++ [task], enqueued := s.enqueued ++ [task] }
  | .doRun paused => (doRun s.tasks paused).map fun r =>
      { s with tasks := r.tasks, invoked := s.invoked ++ r.invoked }

/-- The serials of the tasks in the queue. -/
def queued (s : State Uuid Job) : List ℕ := s.tasks.map Task.serial

/-- **Conservation of tasks.**  Every non-empty task that was ever enqueued is in the
queue once and not yet invoked, or has left the queue and was invoked once. -/
def Conserved (s : State Uuid Job) : Prop :=
  ∀ task ∈ s.enqueued, task.fn.isSome →
    (s.queued.count task.serial = 1 ∧ s.invoked.count task.serial = 0) ∨
      (s.queued.count task.serial = 0 ∧ s.invoked.count task.serial = 1)

/-- The step does not take a live task out of the queue: a `do_run` finds at the head an
empty task, or one that answers that it is paused. -/
def KeepsTask (s : State Uuid Job) : Step Uuid Job → Prop
  | .enqueue .. => True
  | .doRun paused => ∀ task ∈ s.tasks.head?, task.fn.isSome → paused = true

/-! ## The invariant of the runs that keep their tasks -/

/-- No task was invoked, the queue holds enqueued tasks without repetition, and all the
non-empty ones among them. -/
structure AllQueued (s : State Uuid Job) : Prop where
  invoked_nil : s.invoked = []
  serial_eq : ∀ (k : ℕ) (task : Task Uuid Job), s.enqueued[k]? = some task → task.serial = k
  queued_nodup : s.queued.Nodup
  tasks_subset : ∀ task ∈ s.tasks, task ∈ s.enqueued
  enqueued_subset : ∀ task ∈ s.enqueued, task.fn.isSome → task ∈ s.tasks

/-- A new runner satisfies the invariant. -/
theorem init_allQueued : (init : State Uuid Job).AllQueued where
  invoked_nil := rfl
  serial_eq := by simp [init]
  queued_nodup := List.nodup_nil
  tasks_subset := by simp [init]
  enqueued_subset := by simp [init]

/-- The serial of the next task is new. -/
theorem AllQueued.length_notMem {s : State Uuid Job} (h : s.AllQueued) :
    s.enqueued.length ∉ s.queued := by
  intro hmem
  obtain ⟨t, ht, hserial⟩ := List.mem_map.mp hmem
  obtain ⟨k, hk⟩ := List.mem_iff_getElem?.mp (h.tasks_subset t ht)
  have hlt : k < s.enqueued.length := (List.getElem?_eq_some_iff.mp hk).1
  rw [h.serial_eq k t hk] at hserial
  omega

/-- Where every live task is queued, tasks are conserved. -/
theorem AllQueued.conserved {s : State Uuid Job} (h : s.AllQueued) : s.Conserved := by
  intro task htask hfn
  left
  have hmem : task.serial ∈ s.queued :=
    List.mem_map_of_mem (h.enqueued_subset task htask hfn)
  exact ⟨List.count_eq_one_of_mem h.queued_nodup hmem, by rw [h.invoked_nil]; rfl⟩

/-- `enqueue` keeps the invariant. -/
theorem AllQueued.enqueue {s : State Uuid Job} (h : s.AllQueued) (id : Uuid)
    (fn : Option Job) (s' : State Uuid Job) (hs' : s.step (.enqueue id fn) = some s') :
    s'.AllQueued := by
  obtain rfl := Option.some.inj hs'
  refine ⟨h.invoked_nil, ?_, ?_, ?_, ?_⟩
  · intro k task hk
    rcases Nat.lt_trichotomy k s.enqueued.length with hlt | rfl | hgt
    · exact h.serial_eq k task (by rwa [List.getElem?_append_left hlt] at hk)
    · rw [List.getElem?_concat_length] at hk
      rw [← Option.some.inj hk]
    · rw [List.getElem?_eq_none (by rw [List.length_append, List.length_singleton]; omega)] at hk
      exact absurd hk (by simp)
  · show (List.map Task.serial (s.tasks ++ [_])).Nodup
    rw [List.map_append, List.map_singleton, List.nodup_append]
    refine ⟨h.queued_nodup, List.nodup_singleton _, fun k hk k' hk' => ?_⟩
    rw [List.mem_singleton.mp hk']
    rintro rfl
    exact h.length_notMem hk
  · intro task htask
    rcases List.mem_append.mp htask with ht | ht
    · exact List.mem_append_left _ (h.tasks_subset task ht)
    · exact List.mem_append_right _ ht
  · intro task htask hfn
    rcases List.mem_append.mp htask with ht | ht
    · exact List.mem_append_left _ (h.enqueued_subset task ht hfn)
    · exact List.mem_append_right _ ht

/-- The invariant only looks at which tasks are queued, not at their order. -/
theorem AllQueued.of_perm {s : State Uuid Job} (h : s.AllQueued)
    {tasks : List (Task Uuid Job)} (hperm : tasks.Perm s.tasks) :
    ({ s with tasks := tasks } : State Uuid Job).AllQueued where
  invoked_nil := h.invoked_nil
  serial_eq := h.serial_eq
  queued_nodup := (hperm.map Task.serial).nodup_iff.mpr h.queued_nodup
  tasks_subset := fun task htask => h.tasks_subset task (hperm.mem_iff.mp htask)
  enqueued_subset := fun task htask hfn => hperm.mem_iff.mpr (h.enqueued_subset task htask hfn)

/-- Dropping an empty task from the head of the queue keeps the invariant. -/
theorem AllQueued.drop_empty {s : State Uuid Job} (h : s.AllQueued) {task : Task Uuid Job}
    {rest : List (Task Uuid Job)} (htasks : s.tasks = task :: rest) (hfn : task.fn.isNone) :
    ({ s with tasks := rest } : State Uuid Job).AllQueued where
  invoked_nil := h.invoked_nil
  serial_eq := h.serial_eq
  queued_nodup := by
    have hnodup := h.queued_nodup
    unfold queued at hnodup
    rw [htasks, List.map_cons] at hnodup
    exact hnodup.of_cons
  tasks_subset := fun t ht => h.tasks_subset t (by rw [htasks]; exact List.mem_cons_of_mem _ ht)
  enqueued_subset := by
    intro t ht hsome
    have hmem := h.enqueued_subset t ht hsome
    rw [htasks] at hmem
    rcases List.mem_cons.mp hmem with rfl | hrest
    · rw [Option.isNone_iff_eq_none.mp hfn] at hsome
      exact absurd hsome (by simp)
    · exact hrest

/-- **Step lemma.**  A step that keeps its task keeps the invariant. -/
theorem AllQueued.step {s s' : State Uuid Job} (h : s.AllQueued) {a : Step Uuid Job}
    (hkeep : s.KeepsTask a) (hs' : s.step a = some s') : s'.AllQueued := by
  cases a with
  | enqueue id fn => exact h.enqueue id fn s' hs'
  | doRun paused =>
      cases htasks : s.tasks with
      | nil =>
          rw [State.step, htasks] at hs'
          exact absurd hs' (by simp [doRun])
      | cons task rest =>
          rw [State.step, htasks, doRun] at hs'
          split_ifs at hs' with hfn hpaused
          -- an empty task is dropped, a paused one goes to the back of the queue
          · obtain rfl := Option.some.inj hs'
            simpa using h.drop_empty htasks hfn
          · obtain rfl := Option.some.inj hs'
            have hperm : (rest ++ [task]).Perm s.tasks := by
              rw [htasks]
              exact List.perm_append_singleton task rest
            simpa using h.of_perm hperm
          · refine absurd (hkeep task ?_ ?_) hpaused
            · rw [htasks]
              rfl
            · rwa [← Option.not_isNone, Bool.not_eq_true', Bool.eq_false_iff]

/-- A step that does not keep its task loses it: it has left the queue, but was not
invoked. -/
theorem AllQueued.lost {s : State Uuid Job} (h : s.AllQueued) {a : Step Uuid Job}
    (hkeep : ¬ s.KeepsTask a) : ∃ s', s.step a = some s' ∧ ¬ s'.Conserved := by
  cases a with
  | enqueue id fn => exact absurd trivial hkeep
  | doRun paused =>
      simp only [KeepsTask, not_forall] at hkeep
      obtain ⟨task, hhead, hfn, hpaused⟩ := hkeep
      obtain ⟨rest, htasks⟩ := List.head?_eq_some_iff.mp hhead
      have hrun : doRun s.tasks paused
          = some { tasks := rest, invoked := [], returned := some task.id } := by
        rw [htasks, doRun, if_neg (by rw [← Option.not_isSome, hfn]; decide), if_neg hpaused]
      refine ⟨_, by rw [State.step, hrun, Option.map_some], fun hcons => ?_⟩
      have hmem : task ∈ s.enqueued := by
        apply h.tasks_subset
        rw [htasks]
        exact List.mem_cons_self
      have hnodup := h.queued_nodup
      unfold queued at hnodup
      rw [htasks, List.map_cons, List.nodup_cons] at hnodup
      have hzero : (rest.map Task.serial).count task.serial = 0 :=
        List.count_eq_zero_of_not_mem hnodup.1
      have hinv : (s.invoked ++ []).count task.serial = 0 := by rw [h.invoked_nil]; rfl
      -- the task is now neither in the queue nor among the invoked ones
      rcases hcons task hmem hfn with ⟨hone, -⟩ | ⟨-, hone⟩
      · exact absurd (hone.symm.trans hzero) (by decide)
      · exact absurd (hone.symm.trans hinv) (by decide)

/-- **When no queued task is lost.**  Along a run of `enqueue` calls and `do_run`
executions tasks are conserved exactly when every `do_run` of the run finds an empty
task or a paused one. -/
theorem conserved_iff_keepsTask (steps : List (Step Uuid Job)) :
    StepRun.Always step Conserved init steps ↔ StepRun.Guarded step KeepsTask init steps :=
  StepRun.always_iff_guarded (fun _ (h : AllQueued _) => h.conserved)
    (fun _ _ _ h hkeep hs' => h.step hkeep hs') (fun _ _ h hkeep => h.lost hkeep) init_allQueued

/-- One task that is not paused is enqueued and run: it has left the queue without
having been invoked. -/
theorem not_conserved_single :
    ¬ ∀ steps : List (Step ℕ String), StepRun.Always step Conserved init steps := by
  intro hall
  have hlost := hall [.enqueue 7 (some "job"), .doRun false] _ List.prefix_rfl _ rfl
    ⟨0, 7, some "job"⟩ (by decide) rfl
  exact absurd hlost (by decide)

end State

end TaskRunner
