import Mathlib.Logic.Function.Basic
import Ooops.Basis.Count
import Ooops.Basis.Run
import Ooops.RateLimit

/-!
# The Shared Mutexes

The processes of a node share one mutex for each kind of call. A tracked call takes it
twice: to read and advance the counter, and, when it is delayed, to sleep and advance the
delay counter. This module takes these critical sections apart into single steps and lets
any number of processes interleave them, together with their start-up.

A process that starts runs `init`, which calls `pthread_mutex_init` on both mutexes of the
segment it has just attached to, whoever created it. If another process is between lock
and unlock at that moment, its mutex is free again and a third party can enter
(`init_breaks_exclusion`). Where no start-up meets a taken mutex, the mutexes exclude and
no update is lost (`exclusion_and_counts`).

* `Moves` lists what one process can do, step by step; `next_moves` says that these are
  the only steps.
* `Guarded` is the invariant: a held mutex has one holder, which has read the current
  counter, and the counters have counted the writes.
* `callSteps_account`: the steps of one call, taken in one go, do to the counters what
  `account` does.
-/

open Basis

namespace Ooops

/-- The counter that a critical section advances: `p_open_Count` in the first one,
`p_open_Delayed_Count` in the second, and their `lxstat` twins. -/
inductive Counter
  | count
  | delayedCount
  deriving DecidableEq, Repr

/-- Where a process is in its start-up or in a tracked call. -/
inductive Pc
  /-- Not started. -/
  | off
  /-- In `init`, between the two calls of `pthread_mutex_init`. -/
  | starting
  | idle
  /-- At the `pthread_mutex_lock` of a critical section. -/
  | entering (k : Counter) (op : Op) (i : FsIdx)
  /-- In the second critical section, before the `nanosleep` is over. -/
  | sleeping (op : Op) (i : FsIdx)
  /-- In a critical section, before the counter is read. -/
  | counting (k : Counter) (op : Op) (i : FsIdx)
  /-- The counter is read into `nCall_New`. -/
  | counted (k : Counter) (op : Op) (i : FsIdx) (nCallNew : ℤ)
  /-- The counter is written. -/
  | leaving (k : Counter) (op : Op) (i : FsIdx)
  /-- Between the two critical sections. -/
  | stamping (op : Op) (i : FsIdx)
  deriving DecidableEq, Repr

/-- The steps of a process. `begin` starts a tracked call, or the delay of one. -/
inductive Act
  | initMutex (op : Op)
  | begin (k : Counter) (op : Op) (i : FsIdx)
  | lock
  | sleep
  | read
  | write (k : Counter) (op : Op) (i : FsIdx)
  | unlock
  | finish
  deriving DecidableEq, Repr

/-- The two mutexes and the counters of the shared segment. -/
structure Shared where
  locked : Op → Bool
  counter : Counter → Op → FsIdx → ℤ

/-- The zero-filled segment: both mutexes are free. -/
def Shared.zero : Shared := ⟨fun _ => false, fun _ _ _ => 0⟩

/-- Set the word of a mutex. -/
def Shared.setLocked (m : Shared) (op : Op) (b : Bool) : Shared :=
  { m with locked := Function.update m.locked op b }

/-- Write a counter. -/
def Shared.setCounter (m : Shared) (k : Counter) (op : Op) (i : FsIdx) (n : ℤ) : Shared :=
  { m with
    counter := fun k' op' i' =>
      if k' = k ∧ op' = op ∧ i' = i then n else m.counter k' op' i' }

/-- One step of a process at `c`, on the shared segment. A process at a lock that is taken
has no step. When the mutex is free it can go on: it is woken, unless a start-up has overwritten
a taken mutex in the meantime, and with it that somebody waits. -/
def next (c : Pc) (a : Act) (m : Shared) : Option (Pc × Shared) :=
  match c, a with
  | .off, .initMutex .openFile => some (.starting, m.setLocked .openFile false)
  | .starting, .initMutex .lxstat => some (.idle, m.setLocked .lxstat false)
  | .idle, .begin .count op i => some (.entering .count op i, m)
  | .entering .count op i, .lock =>
      if m.locked op then none else some (.counting .count op i, m.setLocked op true)
  | .entering .delayedCount op i, .lock =>
      if m.locked op then none else some (.sleeping op i, m.setLocked op true)
  | .sleeping op i, .sleep => some (.counting .delayedCount op i, m)
  | .counting k op i, .read => some (.counted k op i (m.counter k op i), m)
  | .counted k op i n, .write k' op' i' =>
      if k' = k ∧ op' = op ∧ i' = i then
        some (.leaving k op i, m.setCounter k op i (wrapInt32 (n + 1)))
      else none
  | .leaving .count op i, .unlock => some (.stamping op i, m.setLocked op false)
  | .leaving .delayedCount op _, .unlock => some (.idle, m.setLocked op false)
  | .stamping op i, .begin .delayedCount op' i' =>
      if op' = op ∧ i' = i then some (.entering .delayedCount op i, m) else none
  | .stamping _ _, .finish => some (.idle, m)
  | _, _ => none

/-- The segment and the places of all processes. -/
structure Node where
  shared : Shared
  pc : ℕ → Pc

/-- No process has started. -/
def Node.init : Node := ⟨Shared.zero, fun _ => .off⟩

/-- A step of process `a.1`. -/
def nodeStep (s : Node) (a : ℕ × Act) : Option Node :=
  (next (s.pc a.1) a.2 s.shared).map fun r => ⟨r.2, Function.update s.pc a.1 r.1⟩

/-- Between `pthread_mutex_lock` and `pthread_mutex_unlock` of the mutex of `op`. -/
def Pc.holds (op : Op) : Pc → Prop
  | .sleeping op' _ | .counting _ op' _ | .counted _ op' _ _ | .leaving _ op' _ => op' = op
  | _ => False

/-- In no call. -/
def Pc.finished : Pc → Prop
  | .off | .starting | .idle => True
  | _ => False

/-- In a critical section, or at its lock, with the counter not yet written. -/
def Pc.pending (k : Counter) (op : Op) (i : FsIdx) : Pc → Prop
  | .entering k' op' i' | .counting k' op' i' | .counted k' op' i' _ =>
      k' = k ∧ op' = op ∧ i' = i
  | .sleeping op' i' => .delayedCount = k ∧ op' = op ∧ i' = i
  | _ => False

instance (op : Op) (c : Pc) : Decidable (c.holds op) := by
  cases c <;> unfold Pc.holds <;> infer_instance

instance (k : Counter) (op : Op) (i : FsIdx) (c : Pc) : Decidable (c.pending k op i) := by
  cases c <;> unfold Pc.pending <;> infer_instance

/-- How often the processes have done `a`. -/
def timesDone (a : Act) (h : List (ℕ × Act)) : ℕ := h.countP fun e => e.2 = a

/-- How often process `p` has done `a`. -/
def timesDoneBy (p : ℕ) (a : Act) (h : List (ℕ × Act)) : ℕ :=
  h.countP fun e => decide (e.1 = p) && decide (e.2 = a)

/-- At most one process is in a critical section of `op`. -/
def Exclusive (s : Node) : Prop :=
  ∀ op p q, (s.pc p).holds op → (s.pc q).holds op → p = q

/-- A start-up meets nobody in the critical sections whose mutex it initialises. -/
def QuietInit (s : Node) (a : ℕ × Act) : Prop :=
  ∀ op, a.2 = .initMutex op → ∀ q, ¬(s.pc q).holds op

/-! ### The steps of one process -/

/-- What one step does to the place of the process and to the segment. -/
inductive Moves : Pc → Act → Shared → Pc → Shared → Prop
  | initOpen (m : Shared) :
      Moves .off (.initMutex .openFile) m .starting (m.setLocked .openFile false)
  | initLxstat (m : Shared) :
      Moves .starting (.initMutex .lxstat) m .idle (m.setLocked .lxstat false)
  | call (op : Op) (i : FsIdx) (m : Shared) :
      Moves .idle (.begin .count op i) m (.entering .count op i) m
  | lock {op : Op} {m : Shared} (i : FsIdx) (h : m.locked op = false) :
      Moves (.entering .count op i) .lock m (.counting .count op i) (m.setLocked op true)
  | lockDelay {op : Op} {m : Shared} (i : FsIdx) (h : m.locked op = false) :
      Moves (.entering .delayedCount op i) .lock m (.sleeping op i) (m.setLocked op true)
  | sleep (op : Op) (i : FsIdx) (m : Shared) :
      Moves (.sleeping op i) .sleep m (.counting .delayedCount op i) m
  | read (k : Counter) (op : Op) (i : FsIdx) (m : Shared) :
      Moves (.counting k op i) .read m (.counted k op i (m.counter k op i)) m
  | write (k : Counter) (op : Op) (i : FsIdx) (n : ℤ) (m : Shared) :
      Moves (.counted k op i n) (.write k op i) m (.leaving k op i)
        (m.setCounter k op i (wrapInt32 (n + 1)))
  | unlock (op : Op) (i : FsIdx) (m : Shared) :
      Moves (.leaving .count op i) .unlock m (.stamping op i) (m.setLocked op false)
  | unlockDelay (op : Op) (i : FsIdx) (m : Shared) :
      Moves (.leaving .delayedCount op i) .unlock m .idle (m.setLocked op false)
  | delay (op : Op) (i : FsIdx) (m : Shared) :
      Moves (.stamping op i) (.begin .delayedCount op i) m (.entering .delayedCount op i) m
  | finish (op : Op) (i : FsIdx) (m : Shared) : Moves (.stamping op i) .finish m .idle m

/-- **Inversion of a step.** -/
theorem next_moves {c c' : Pc} {a : Act} {m m' : Shared} (h : next c a m = some (c', m')) :
    Moves c a m c' m' := by
  simp only [next] at h
  split at h
  all_goals try split at h
  all_goals
    simp only [Option.some.injEq, Prod.mk.injEq, reduceCtorEq] at h
    try obtain ⟨rfl, rfl⟩ := h
  case h_1 => exact .initOpen m
  case h_2 => exact .initLxstat m
  case h_3 op i => exact .call op i m
  case h_4.isFalse op i hl => exact .lock i (by simpa using hl)
  case h_5.isFalse op i hl => exact .lockDelay i (by simpa using hl)
  case h_6 op i => exact .sleep op i m
  case h_7 k op i => exact .read k op i m
  case h_8.isTrue k op i n k' op' i' he =>
    obtain ⟨rfl, rfl, rfl⟩ := he
    exact .write k' op' i' n m
  case h_9 op i => exact .unlock op i m
  case h_10 op i => exact .unlockDelay op i m
  case h_11.isTrue op i op' i' he =>
    obtain ⟨rfl, rfl⟩ := he
    exact .delay op' i' m
  case h_12 op i => exact .finish op i m

/-- A step of the node is a move of one process. -/
theorem nodeStep_moves {s s' : Node} {a : ℕ × Act} (h : nodeStep s a = some s') :
    ∃ c', Moves (s.pc a.1) a.2 s.shared c' s'.shared ∧
      s'.pc = Function.update s.pc a.1 c' := by
  obtain ⟨⟨c', m'⟩, hn, rfl⟩ := Option.map_eq_some_iff.mp h
  exact ⟨c', next_moves hn, rfl⟩

/-- What a step does to the mutex of `op`: the process takes it when it is free, or keeps
it, or is outside afterwards, having touched the mutex only to give it back or to
initialise it. -/
theorem Moves.mutex {c c' : Pc} {a : Act} {m m' : Shared} (h : Moves c a m c' m') (op : Op) :
    (c'.holds op ∧ m.locked op = false ∧ m'.locked op = true) ∨
    (c'.holds op ∧ c.holds op ∧ m'.locked op = m.locked op) ∨
    (¬c'.holds op ∧ (m'.locked op = m.locked op ∨ c.holds op ∨ a = .initMutex op)) := by
  cases h with
  | initOpen | initLxstat =>
      refine .inr (.inr ⟨id, ?_⟩)
      cases op <;> simp [Shared.setLocked]
  | call | delay | finish => exact .inr (.inr ⟨id, .inl rfl⟩)
  | sleep op' i | read k op' i | write k op' i n =>
      by_cases ho : op' = op
      · exact .inr (.inl ⟨ho, ho, rfl⟩)
      · exact .inr (.inr ⟨ho, .inl rfl⟩)
  | @lock op' m i hl | @lockDelay op' m i hl =>
      by_cases ho : op' = op
      · subst ho
        exact .inl ⟨rfl, hl, Function.update_self ..⟩
      · exact .inr (.inr ⟨ho, .inl (Function.update_of_ne (Ne.symm ho) ..)⟩)
  | unlock op' i | unlockDelay op' i =>
      refine .inr (.inr ⟨id, ?_⟩)
      by_cases ho : op' = op
      · exact .inr (.inl ho)
      · exact .inl (Function.update_of_ne (Ne.symm ho) ..)

/-- What a step does to a counter: the writer stores one more than it has read, everybody
else leaves it alone. -/
theorem Moves.counter {c c' : Pc} {a : Act} {m m' : Shared} (h : Moves c a m c' m')
    (k : Counter) (op : Op) (i : FsIdx) :
    (a ≠ .write k op i ∧ m'.counter k op i = m.counter k op i) ∨
    ∃ n, a = .write k op i ∧ c = .counted k op i n ∧ m'.counter k op i = wrapInt32 (n + 1) := by
  cases h with
  | write k' op' i' n =>
      by_cases hsame : k = k' ∧ op = op' ∧ i = i'
      · obtain ⟨rfl, rfl, rfl⟩ := hsame
        exact .inr ⟨n, rfl, rfl, if_pos ⟨rfl, rfl, rfl⟩⟩
      · refine .inl ⟨?_, if_neg hsame⟩
        rintro ⟨⟩
        exact hsame ⟨rfl, rfl, rfl⟩
  | _ => exact .inl ⟨by simp, rfl⟩

/-- What a step does to the pending writes of a process: `begin` adds one, and the write
settles it. -/
theorem Moves.pending {c c' : Pc} {a : Act} {m m' : Shared} (h : Moves c a m c' m')
    (k : Counter) (op : Op) (i : FsIdx) :
    (if c'.pending k op i then 1 else 0) + (if a = .write k op i then 1 else 0) =
      (if c.pending k op i then 1 else 0) + if a = .begin k op i then 1 else 0 := by
  cases h <;> simp [Pc.pending]

/-- A process that has read a counter has just done so. -/
theorem Moves.of_counted {c : Pc} {a : Act} {m m' : Shared} {k : Counter} {op : Op}
    {i : FsIdx} {n : ℤ} (h : Moves c a m (.counted k op i n) m') :
    n = m'.counter k op i := by
  cases h
  rfl

/-! ### The accounting in single steps -/

/-- The mutexes `locked` and the counters of the ledgers `m`. -/
def Shared.ofShm (locked : Op → Bool) (m : Shm) : Shared where
  locked := locked
  counter := fun k op i =>
    match k with
    | .count => (m op i).count
    | .delayedCount => (m op i).delayedCount

/-- The steps of one call that is delayed or not. -/
def callSteps (op : Op) (i : FsIdx) (delayed : Bool) : List Act :=
  [.begin .count op i, .lock, .read, .write .count op i, .unlock] ++
    if delayed then
      [.begin .delayedCount op i, .lock, .sleep, .read, .write .delayedCount op i, .unlock]
    else [.finish]

/-- The steps of a single process. -/
def soloStep (r : Pc × Shared) (a : Act) : Option (Pc × Shared) := next r.1 a r.2

/-- Writing what a counter holds already changes nothing. -/
theorem Shared.setCounter_eq_self {m : Shared} {k : Counter} {op : Op} {i : FsIdx} {n : ℤ}
    (h : n = m.counter k op i) : m.setCounter k op i n = m := by
  subst h
  refine Shared.mk.injEq .. |>.mpr ⟨rfl, ?_⟩
  funext k' op' i'
  split
  case isTrue heq =>
      obtain ⟨rfl, rfl, rfl⟩ := heq
      rfl
  case isFalse => rfl

/-- Replacing a ledger writes its two counters. -/
theorem Shared.ofShm_set (locked : Op → Bool) (m : Shm) (op : Op) (i : FsIdx) (l : Ledger) :
    Shared.ofShm locked (m.set op i l) =
      ((Shared.ofShm locked m).setCounter .count op i l.count).setCounter
        .delayedCount op i l.delayedCount := by
  refine Shared.mk.injEq .. |>.mpr ⟨rfl, ?_⟩
  funext k op' i'
  by_cases h : op' = op ∧ i' = i
  · obtain ⟨rfl, rfl⟩ := h
    cases k <;> simp [Shared.ofShm, Shared.setCounter]
  · cases k <;> simp [Shared.ofShm, Shared.setCounter, Shm.set_of_ne h, h]

/-- Replacing a ledger by one with the same counters changes no counter. -/
theorem Shared.ofShm_set_of_eq {locked : Op → Bool} {m : Shm} {op : Op} {i : FsIdx}
    {l : Ledger} (hc : l.count = (m op i).count)
    (hd : l.delayedCount = (m op i).delayedCount) :
    Shared.ofShm locked (m.set op i l) = Shared.ofShm locked m := by
  have hkeep : (Shared.ofShm locked m).setCounter .count op i l.count =
      Shared.ofShm locked m := Shared.setCounter_eq_self hc
  rw [Shared.ofShm_set, hkeep]
  exact Shared.setCounter_eq_self hd

/-- A delay advances the delay counter. -/
theorem Shared.ofShm_delayCall (locked : Op → Bool) (op : Op) (i : FsIdx) (v : View)
    (e : CallEnv) (n : ℤ) :
    Shared.ofShm locked (delayCall op i v e n).shm =
      (Shared.ofShm locked v.shm).setCounter .delayedCount op i
        (wrapInt32 ((v.shm op i).delayedCount + 1)) := by
  have hkeep : (Shared.ofShm locked v.shm).setCounter .count op i (v.shm op i).count =
      Shared.ofShm locked v.shm := Shared.setCounter_eq_self rfl
  rw [delayCall, Shared.ofShm_set]
  simp only [Ledger.stamp, hkeep]

/-- The accounting of a call advances its counter and, if it delays the call, the delay
counter. -/
theorem account_counters (op : Op) (i : FsIdx) (v : View) (e : CallEnv)
    (locked : Op → Bool) :
    ∃ delayed : Bool, Shared.ofShm locked (account op i v e).shm =
      let m := (Shared.ofShm locked v.shm).setCounter .count op i
        (wrapInt32 ((v.shm op i).count + 1))
      if delayed then
        m.setCounter .delayedCount op i (wrapInt32 ((v.shm op i).delayedCount + 1))
      else m := by
  have henter : Shared.ofShm locked (enter op i v e).shm =
      (Shared.ofShm locked v.shm).setCounter .count op i
        (wrapInt32 ((v.shm op i).count + 1)) := by
    rw [enter, Shared.ofShm_set]
    exact Shared.setCounter_eq_self (by simp [Shared.setCounter, Shared.ofShm, Ledger.stamp])
  have hdelayed : ((enter op i v e).shm op i).delayedCount = (v.shm op i).delayedCount := by
    simp only [enter, Shm.set_self, Ledger.stamp]
  rw [account]
  dsimp only
  split
  · split
    · refine ⟨true, ?_⟩
      rw [if_pos rfl, ← henter, ← hdelayed, Shared.ofShm_delayCall]
      dsimp only
      rw [Shared.ofShm_set_of_eq, Shm.set_self] <;> rfl
    · refine ⟨false, ?_⟩
      rw [Shared.ofShm_set_of_eq, henter] <;> rfl
  · exact ⟨false, henter⟩

/-- Taking a free mutex, writing a counter and giving the mutex back writes the counter. -/
theorem Shared.release {m : Shared} {op : Op} (hfree : m.locked op = false) (k : Counter)
    (i : FsIdx) (n : ℤ) :
    (((m.setLocked op true).setCounter k op i n).setLocked op false) =
      m.setCounter k op i n := by
  have hlock : Function.update (Function.update m.locked op true) op false = m.locked := by
    rw [Function.update_idem, ← hfree, Function.update_eq_self]
  simp only [Shared.setLocked, Shared.setCounter, hlock]

/-- The first critical section, taken in one go. -/
theorem runSteps_count {m : Shared} {op : Op} (hfree : m.locked op = false) (i : FsIdx) :
    runSteps soloStep (.idle, m)
        [.begin .count op i, .lock, .read, .write .count op i, .unlock] =
      some (.stamping op i,
        m.setCounter .count op i (wrapInt32 (m.counter .count op i + 1))) := by
  rw [← Shared.release hfree]
  simp only [runSteps, soloStep, next, Option.bind_some, hfree, Bool.false_eq_true, if_false,
    and_self, if_true]
  rfl

/-- The second critical section, taken in one go. -/
theorem runSteps_delay {m : Shared} {op : Op} (hfree : m.locked op = false) (i : FsIdx) :
    runSteps soloStep (.stamping op i, m)
        [.begin .delayedCount op i, .lock, .sleep, .read, .write .delayedCount op i,
          .unlock] =
      some (.idle,
        m.setCounter .delayedCount op i (wrapInt32 (m.counter .delayedCount op i + 1))) := by
  rw [← Shared.release hfree]
  simp only [runSteps, soloStep, next, Option.bind_some, hfree, Bool.false_eq_true, if_false,
    and_self, if_true]
  rfl

/-- **The steps of one call, taken in one go, do to the counters what its accounting
does.** -/
theorem callSteps_account (op : Op) (i : FsIdx) (v : View) (e : CallEnv)
    {locked : Op → Bool} (hfree : locked op = false) :
    ∃ delayed, runSteps soloStep (.idle, Shared.ofShm locked v.shm)
      (callSteps op i delayed) = some (.idle, Shared.ofShm locked (account op i v e).shm) := by
  obtain ⟨delayed, hacc⟩ := account_counters op i v e locked
  refine ⟨delayed, ?_⟩
  rw [hacc, callSteps, runSteps_append, runSteps_count hfree]
  cases delayed with
  | false => rfl
  | true =>
      rw [Option.bind_some, if_pos rfl, runSteps_delay hfree]
      simp [Shared.setCounter, Shared.ofShm]

/-! ### The invariant -/

/-- The invariant: a taken mutex has one holder, which has read the current counter, the
counters have counted the writes, and every process has written as often as it began. -/
structure Guarded (h : List (ℕ × Act)) (s : Node) : Prop where
  exclusive : Exclusive s
  locked : ∀ op p, (s.pc p).holds op → s.shared.locked op = true
  fresh : ∀ p k op i n, s.pc p = .counted k op i n → n = s.shared.counter k op i
  writes : ∀ k op i, s.shared.counter k op i = wrapInt32 (timesDone (.write k op i) h)
  begins : ∀ p k op i, timesDoneBy p (.begin k op i) h =
    timesDoneBy p (.write k op i) h + if (s.pc p).pending k op i then 1 else 0

theorem Guarded.init : Guarded [] Node.init where
  exclusive := fun _ _ _ h => False.elim h
  locked := fun _ _ h => False.elim h
  fresh := fun _ _ _ _ _ h => nomatch h
  writes := fun _ _ _ => ((wrapInt32_natCast_eq_iff 0).mpr (by norm_num)).symm
  begins := fun _ _ _ _ => rfl

theorem timesDone_concat (a : Act) (h : List (ℕ × Act)) (e : ℕ × Act) :
    timesDone a (h ++ [e]) = timesDone a h + if e.2 = a then 1 else 0 := by
  simp [timesDone, List.countP_append, List.countP_cons]

theorem timesDoneBy_concat (p : ℕ) (a : Act) (h : List (ℕ × Act)) (e : ℕ × Act) :
    timesDoneBy p a (h ++ [e]) =
      timesDoneBy p a h + if e.1 = p ∧ e.2 = a then 1 else 0 := by
  simp [timesDoneBy, List.countP_append, List.countP_cons]

section Step

variable {h : List (ℕ × Act)} {s s' : Node} {a : ℕ × Act} {c' : Pc} (hg : Guarded h s)
  (hmove : Moves (s.pc a.1) a.2 s.shared c' s'.shared)
  (hpc : s'.pc = Function.update s.pc a.1 c')

include hg hmove hpc

/-- Two holders after a step are one: the mover is a new holder only of a free mutex. -/
theorem Guarded.exclusive_step : Exclusive s' := by
  have hself : s'.pc a.1 = c' := by rw [hpc, Function.update_self]
  have hother : ∀ p, p ≠ a.1 → s'.pc p = s.pc p := fun p hp => by
    rw [hpc, Function.update_of_ne hp]
  have hmover : ∀ op q, q ≠ a.1 → (s.pc q).holds op → ¬c'.holds op := by
    intro op q hq hold hnew
    rcases hmove.mutex op with ⟨-, hfree, -⟩ | ⟨-, hkept, -⟩ | ⟨hout, -⟩
    · exact absurd (hg.locked op q hold) (by simp [hfree])
    · exact hq (hg.exclusive op q a.1 hold hkept)
    · exact hout hnew
  intro op p q hp hq
  by_cases hpa : p = a.1 <;> by_cases hqa : q = a.1
  · rw [hpa, hqa]
  · rw [hpa, hself] at hp
    rw [hother q hqa] at hq
    exact absurd hp (hmover op q hqa hq)
  · rw [hqa, hself] at hq
    rw [hother p hpa] at hp
    exact absurd hq (hmover op p hpa hp)
  · rw [hother p hpa] at hp
    rw [hother q hqa] at hq
    exact hg.exclusive op p q hp hq

/-- A mutex that is held after a step is locked, unless a start-up has met its holder. -/
theorem Guarded.locked_step (hquiet : QuietInit s a) {op : Op} {p : ℕ}
    (hp : (s'.pc p).holds op) : s'.shared.locked op = true := by
  rcases hmove.mutex op with ⟨-, -, htaken⟩ | ⟨-, hold, hkept⟩ | ⟨hout, htouch⟩
  · exact htaken
  · rw [hkept]
    exact hg.locked op a.1 hold
  · have hpa : p ≠ a.1 := by
      rintro rfl
      rw [hpc, Function.update_self] at hp
      exact hout hp
    rw [hpc, Function.update_of_ne hpa] at hp
    rcases htouch with hkept | hold | hinit
    · rw [hkept]
      exact hg.locked op p hp
    · exact absurd (hg.exclusive op p a.1 hp hold) hpa
    · exact absurd hp (hquiet op hinit p)

/-- What a process has read is still the counter after a step: its writer would be inside with
the reader. -/
theorem Guarded.fresh_step {p : ℕ} {k : Counter} {op : Op} {i : FsIdx} {n : ℤ}
    (hp : s'.pc p = .counted k op i n) : n = s'.shared.counter k op i := by
  by_cases hpa : p = a.1
  · rw [hpa, hpc, Function.update_self] at hp
    exact (hp ▸ hmove).of_counted
  · rw [hpc, Function.update_of_ne hpa] at hp
    rcases hmove.counter k op i with ⟨-, hkept⟩ | ⟨n', -, hwriter, -⟩
    · rw [hkept]
      exact hg.fresh p k op i n hp
    · refine absurd (hg.exclusive op p a.1 ?_ ?_) hpa
      · rw [hp]
        rfl
      · rw [hwriter]
        rfl

omit hpc in
/-- The counters count the writes. -/
theorem Guarded.writes_step (k : Counter) (op : Op) (i : FsIdx) :
    s'.shared.counter k op i = wrapInt32 (timesDone (.write k op i) (h ++ [a])) := by
  rw [timesDone_concat]
  rcases hmove.counter k op i with ⟨hne, hkept⟩ | ⟨n, hwrite, hwriter, hnew⟩
  · rw [hkept, if_neg hne]
    exact hg.writes k op i
  · rw [hnew, hg.fresh a.1 k op i n hwriter, hg.writes, wrapInt32_add_one, if_pos hwrite]
    push_cast
    rfl

/-- What a process begins it has written, or is about to write. -/
theorem Guarded.begins_step (p : ℕ) (k : Counter) (op : Op) (i : FsIdx) :
    timesDoneBy p (.begin k op i) (h ++ [a]) = timesDoneBy p (.write k op i) (h ++ [a]) +
      if (s'.pc p).pending k op i then 1 else 0 := by
  rw [timesDoneBy_concat, timesDoneBy_concat]
  have hold := hg.begins p k op i
  by_cases hpa : p = a.1
  · have hbal := hmove.pending k op i
    subst hpa
    rw [hpc, Function.update_self]
    simp only [true_and]
    omega
  · rw [hpc, Function.update_of_ne hpa, if_neg fun he => hpa he.1.symm,
      if_neg fun he => hpa he.1.symm]
    exact hold

end Step

/-- **Every step keeps the invariant**, a start-up only if it meets nobody. -/
theorem Guarded.step {h : List (ℕ × Act)} {s s' : Node} {a : ℕ × Act} (hg : Guarded h s)
    (hquiet : QuietInit s a) (hs : nodeStep s a = some s') : Guarded (h ++ [a]) s' := by
  obtain ⟨c', hmove, hpc⟩ := nodeStep_moves hs
  exact {
    exclusive := hg.exclusive_step hmove hpc
    locked := fun _ _ hp => hg.locked_step hmove hpc hquiet hp
    fresh := fun _ _ _ _ _ hp => hg.fresh_step hmove hpc hp
    writes := hg.writes_step hmove
    begins := hg.begins_step hmove hpc }

/-- The invariant holds after every run whose start-ups meet nobody. -/
theorem guarded_of_run {as : List (ℕ × Act)} {s : Node}
    (hquiet : Along nodeStep QuietInit Node.init as)
    (hrun : runSteps nodeStep Node.init as = some s) : Guarded as s :=
  history_of_runSteps Guarded.init (fun _ _ _ _ hg hq hs => hg.step hq hs) as s hquiet hrun

theorem Pc.finished.not_pending {c : Pc} (h : c.finished) (k : Counter) (op : Op)
    (i : FsIdx) : ¬c.pending k op i := by
  cases c <;> first | exact id | exact False.elim h

/-- When all calls are finished, what was begun was written. -/
theorem Guarded.begins_eq_writes {h : List (ℕ × Act)} {s : Node} (hg : Guarded h s)
    (hfin : ∀ p, (s.pc p).finished) (k : Counter) (op : Op) (i : FsIdx) :
    timesDone (.begin k op i) h = timesDone (.write k op i) h := by
  refine countP_eq_of_party (f := Prod.fst) fun p => ?_
  have hp := hg.begins p k op i
  rw [if_neg ((hfin p).not_pending k op i)] at hp
  exact hp

/-- **Mutual exclusion and exact counts.** In every run in which no start-up initialises a
mutex that somebody is inside of, at most one process is inside at any time, and when all
calls are finished every counter is the number of calls, as long as an `int` can hold
it. -/
theorem exclusion_and_counts {as : List (ℕ × Act)} {s : Node}
    (hquiet : Along nodeStep QuietInit Node.init as)
    (hrun : runSteps nodeStep Node.init as = some s) :
    Exclusive s ∧ ((∀ p, (s.pc p).finished) → ∀ k op i,
      s.shared.counter k op i = timesDone (.begin k op i) as ↔
        timesDone (.begin k op i) as < 2 ^ 31) := by
  have hg := guarded_of_run hquiet hrun
  refine ⟨hg.exclusive, fun hfin k op i => ?_⟩
  rw [hg.writes, hg.begins_eq_writes hfin]
  exact wrapInt32_natCast_eq_iff _

/-- One process opens a file; another starts up while the first is between its two critical
sections. -/
def quietRun : List (ℕ × Act) :=
  [(0, .initMutex .openFile), (0, .initMutex .lxstat), (0, .begin .count .openFile 0),
   (0, .lock), (0, .read), (0, .write .count .openFile 0), (0, .unlock),
   (1, .initMutex .openFile), (1, .initMutex .lxstat), (0, .finish)]

theorem exclusion_and_counts_quietRun :
    ∃ s, runSteps nodeStep Node.init quietRun = some s ∧
      s.shared.counter .count .openFile 0 = 1 := by
  have hquiet : Along nodeStep QuietInit Node.init quietRun := by
    refine .cons_some (fun _ _ q => ?_) rfl <| .cons_some (fun _ _ q => ?_) rfl <|
      .cons_some nofun rfl <| .cons_some nofun rfl <| .cons_some nofun rfl <|
      .cons_some nofun rfl <| .cons_some nofun rfl <| .cons_some (fun _ _ q => ?_) rfl <|
      .cons_some (fun _ _ q => ?_) rfl <| .cons_some nofun rfl trivial
    all_goals rcases q with _ | _ | q <;> exact id
  have hfin : ∀ p, ((runSteps nodeStep Node.init quietRun).get rfl |>.pc p).finished := by
    rintro (_ | _ | p) <;> trivial
  refine ⟨_, rfl, ?_⟩
  exact ((exclusion_and_counts hquiet rfl).2 hfin .count .openFile 0).mpr (by decide)

/-- Process 0 is inside when process 1 starts up and takes the mutex again; both have read
the counter at 0. -/
def clashingRun : List (ℕ × Act) :=
  [(0, .initMutex .openFile), (0, .initMutex .lxstat), (0, .begin .count .openFile 0),
   (0, .lock), (0, .read),
   (1, .initMutex .openFile), (1, .initMutex .lxstat), (1, .begin .count .openFile 0),
   (1, .lock), (1, .read)]

/-- Both processes write and leave. -/
def clashingRunEnd : List (ℕ × Act) :=
  [(0, .write .count .openFile 0), (0, .unlock), (0, .finish),
   (1, .write .count .openFile 0), (1, .unlock), (1, .finish)]

/-- **A start-up breaks the mutex.** Two processes are inside at once, and the counter says
one call after two. -/
theorem init_breaks_exclusion :
    (¬∀ as s, runSteps nodeStep Node.init as = some s → Exclusive s) ∧
    ¬∀ as s, runSteps nodeStep Node.init as = some s → (∀ p, (s.pc p).finished) →
      ∀ k op i, s.shared.counter k op i = timesDone (.begin k op i) as := by
  constructor
  · intro h
    have hboth := h clashingRun _ rfl .openFile 0 1 rfl rfl
    exact absurd hboth (by decide)
  · intro h
    have hcount := h (clashingRun ++ clashingRunEnd) _ rfl ?_ .count .openFile 0
    · exact absurd hcount (by decide)
    · rintro (_ | _ | p)
      · trivial
      · trivial
      · trivial

end Ooops
