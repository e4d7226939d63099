import Ooops.Basis.Drain
import Ooops.SharedMutex

/-!
# Progress at the Shared Mutexes

That the mutexes exclude is one half of what they are for; the other half is that nobody
waits for ever. A taken mutex has a holder, and a holder has always a step to take: no critical
section of one kind of call waits for the mutex of the other. Who waits at a mutex is woken when
it is released. A start-up that overwrites a taken mutex would also overwrite that somebody
waits, so the start-ups are assumed to meet free ones.

The mutexes are not robust, though. A process that is stopped or killed between lock and
unlock leaves its mutex taken, and every other call of that kind on the node waits at its
lock, whatever the other processes do.

* `calls_finish`: all calls that have begun can finish, and then they are all counted.
* `stopped_holder_blocks`: once a holder takes no more steps, nobody gets past its mutex.
-/

open Basis

namespace Ooops

/-! ### What is left of a call -/

/-- The steps that are left of a call which is not delayed after the next step. -/
def Pc.stepsLeft : Pc → ℕ
  | .off | .starting | .idle => 0
  | .entering .count _ _ => 5
  | .counting .count _ _ => 4
  | .counted .count _ _ _ => 3
  | .leaving .count _ _ => 2
  | .stamping _ _ => 1
  | .entering .delayedCount _ _ => 5
  | .sleeping _ _ => 4
  | .counting .delayedCount _ _ => 3
  | .counted .delayedCount _ _ _ => 2
  | .leaving .delayedCount _ _ => 1

theorem Pc.finished_iff (c : Pc) : c.finished ↔ c.stepsLeft = 0 := by
  cases c with
  | entering k | counting k | counted k | leaving k =>
      cases k <;> exact ⟨False.elim, nofun⟩
  | off | starting | idle => exact ⟨fun _ => rfl, fun _ => trivial⟩
  | sleeping | stamping => exact ⟨False.elim, nofun⟩

theorem Pc.stepsLeft_le (c : Pc) : c.stepsLeft ≤ 5 := by
  cases c with
  | entering k | counting k | counted k | leaving k => cases k <;> norm_num [stepsLeft]
  | off | starting | idle | sleeping | stamping => norm_num [stepsLeft]

/-- Steps that neither start a call nor a process. -/
def Act.Settles : Act → Prop
  | .initMutex _ | .begin _ _ _ => False
  | _ => True

/-- A process in a call has a step that brings it nearer to its end, unless it waits at a
taken mutex. -/
theorem exists_settling_step {c : Pc} (m : Shared) (hc : c.stepsLeft ≠ 0)
    (hlock : ∀ k op i, c = .entering k op i → m.locked op = false) :
    ∃ a c' m', a.Settles ∧ next c a m = some (c', m') ∧ c'.stepsLeft < c.stepsLeft := by
  cases c with
  | off | starting | idle => exact absurd rfl hc
  | entering k op i =>
      have hfree := hlock k op i rfl
      cases k with
      | count => exact ⟨.lock, _, _, trivial, if_neg (by simp [hfree]), by norm_num [Pc.stepsLeft]⟩
      | delayedCount =>
          exact ⟨.lock, _, _, trivial, if_neg (by simp [hfree]), by norm_num [Pc.stepsLeft]⟩
  | sleeping op i => exact ⟨.sleep, _, _, trivial, rfl, by norm_num [Pc.stepsLeft]⟩
  | counting k op i =>
      refine ⟨.read, _, _, trivial, rfl, ?_⟩
      cases k <;> norm_num [Pc.stepsLeft]
  | counted k op i n =>
      refine ⟨.write k op i, _, _, trivial, if_pos ⟨rfl, rfl, rfl⟩, ?_⟩
      cases k <;> norm_num [Pc.stepsLeft]
  | leaving k op i =>
      cases k with
      | count => exact ⟨.unlock, _, _, trivial, rfl, by norm_num [Pc.stepsLeft]⟩
      | delayedCount => exact ⟨.unlock, _, _, trivial, rfl, by norm_num [Pc.stepsLeft]⟩
  | stamping op i => exact ⟨.finish, _, _, trivial, rfl, by norm_num [Pc.stepsLeft]⟩

/-! ### A taken mutex has a holder -/

/-- A taken mutex has a holder, and only the processes of `S` are in calls. -/
structure Attended (S : Finset ℕ) (s : Node) : Prop where
  held : ∀ op, s.shared.locked op = true → ∃ p, (s.pc p).holds op
  inside : ∀ p, (s.pc p).stepsLeft ≠ 0 → p ∈ S

/-- A process that stops holding a mutex or initialises it leaves it free. -/
theorem Moves.free_of_touched {c c' : Pc} {a : Act} {m m' : Shared} (h : Moves c a m c' m')
    {op : Op} (hout : ¬c'.holds op) (htouch : c.holds op ∨ a = .initMutex op) :
    m'.locked op = false := by
  cases h with
  | initOpen | initLxstat =>
      obtain hold | ⟨⟨⟩⟩ := htouch
      · exact absurd hold id
      · simp only [Shared.setLocked, Function.update_self]
  | unlock op' i m | unlockDelay op' i m =>
      obtain hold | hinit := htouch
      · obtain rfl : op' = op := hold
        exact Function.update_self ..
      · cases hinit
  | sleep | read | write =>
      obtain hold | hinit := htouch
      · exact absurd hold hout
      · cases hinit
  | call | lock | lockDelay | delay | finish =>
      obtain hold | hinit := htouch
      · exact absurd hold id
      · cases hinit

theorem Attended.held_step {S : Finset ℕ} {s s' : Node} {a : ℕ × Act} {c' : Pc}
    (hs : Attended S s) (hmove : Moves (s.pc a.1) a.2 s.shared c' s'.shared)
    (hpc : s'.pc = Function.update s.pc a.1 c') (op : Op) (htaken : s'.shared.locked op = true) :
    ∃ p, (s'.pc p).holds op := by
  by_cases hnew : c'.holds op
  · exact ⟨a.1, by rwa [hpc, Function.update_self]⟩
  · have hfree : (s.pc a.1).holds op ∨ a.2 = .initMutex op → False := fun htouch => by
      rw [hmove.free_of_touched hnew htouch] at htaken
      exact absurd htaken nofun
    have hbefore : s.shared.locked op = true := by
      rcases hmove.mutex op with ⟨hin, -⟩ | ⟨hin, -⟩ | ⟨-, hkept | htouch⟩
      · exact absurd hin hnew
      · exact absurd hin hnew
      · rwa [← hkept]
      · exact (hfree htouch).elim
    obtain ⟨p, hp⟩ := hs.held op hbefore
    refine ⟨p, ?_⟩
    rwa [hpc, Function.update_of_ne]
    rintro rfl
    exact hfree (.inl hp)

/-- Every step leaves the mutexes attended, in a set that contains the mover. -/
theorem Attended.step {S : Finset ℕ} {s s' : Node} {a : ℕ × Act} (hs : Attended S s)
    (hmem : a.1 ∈ S) (hstep : nodeStep s a = some s') : Attended S s' := by
  obtain ⟨c', hmove, hpc⟩ := nodeStep_moves hstep
  refine ⟨hs.held_step hmove hpc, fun p hp => ?_⟩
  by_cases hpa : p = a.1
  · rwa [hpa]
  · rw [hpc, Function.update_of_ne hpa] at hp
    exact hs.inside p hp

/-- While a call is not finished, some process has a step that settles it. -/
theorem Attended.exists_step {S : Finset ℕ} {s : Node} (hs : Attended S s)
    (hwork : ∑ p ∈ S, (s.pc p).stepsLeft ≠ 0) :
    ∃ a s', Act.Settles a.2 ∧ nodeStep s a = some s' ∧ Attended S s' ∧
      ∑ p ∈ S, (s'.pc p).stepsLeft < ∑ p ∈ S, (s.pc p).stepsLeft := by
  obtain ⟨p, hp, hleft, hlock⟩ : ∃ p ∈ S, (s.pc p).stepsLeft ≠ 0 ∧
      ∀ k op i, s.pc p = .entering k op i → s.shared.locked op = false := by
    by_cases hheld : ∃ op p, (s.pc p).holds op
    · -- a holder is not at a lock
      obtain ⟨op, p, hp⟩ := hheld
      have hleft : (s.pc p).stepsLeft ≠ 0 := by
        intro hzero
        have hfin := (Pc.finished_iff _).mpr hzero
        cases hc : s.pc p <;> rw [hc] at hp hfin <;> first | exact hp | exact hfin
      refine ⟨p, hs.inside p hleft, hleft, fun k op' i hc => ?_⟩
      rw [hc] at hp
      exact absurd hp id
    · -- no mutex is taken
      obtain ⟨p, hp, hleft⟩ := Finset.exists_ne_zero_of_sum_ne_zero hwork
      refine ⟨p, hp, hleft, fun k op i _ => ?_⟩
      by_contra htaken
      exact hheld ⟨op, hs.held op (Bool.eq_true_of_not_eq_false htaken)⟩
  obtain ⟨a, c', m', ha, hnext, hlt⟩ := exists_settling_step s.shared hleft hlock
  have hstep : nodeStep s (p, a) = some ⟨m', Function.update s.pc p c'⟩ := by
    rw [nodeStep, hnext, Option.map_some]
  exact ⟨(p, a), _, ha, hstep, hs.step hp hstep, sum_update_lt hp hlt⟩

/-- A mutex that nobody holds is free. -/
theorem Attended.free {S : Finset ℕ} {s : Node} (hs : Attended S s)
    (hfin : ∀ p, (s.pc p).finished) (op : Op) : s.shared.locked op = false := by
  by_contra htaken
  obtain ⟨p, hp⟩ := hs.held op (Bool.eq_true_of_not_eq_false htaken)
  have hdone := hfin p
  cases hc : s.pc p <;> rw [hc] at hp hdone <;> first | exact hp | exact hdone

/-- Process 0 is inside, process 1 comes to the lock; process 2 has no call. -/
def stoppedRun : List (ℕ × Act) :=
  [(0, .initMutex .openFile), (0, .initMutex .lxstat), (1, .initMutex .openFile),
   (1, .initMutex .lxstat), (2, .initMutex .openFile), (2, .initMutex .lxstat),
   (0, .begin .count .openFile 0), (0, .lock), (1, .begin .count .openFile 0)]

theorem stoppedRun_quiet : Along nodeStep QuietInit Node.init stoppedRun := by
  refine .cons_some (fun _ _ q => ?_) rfl <| .cons_some (fun _ _ q => ?_) rfl <|
    .cons_some (fun _ _ q => ?_) rfl <| .cons_some (fun _ _ q => ?_) rfl <|
    .cons_some (fun _ _ q => ?_) rfl <| .cons_some (fun _ _ q => ?_) rfl <|
    .cons_some nofun rfl <| .cons_some nofun rfl <| .cons_some nofun rfl trivial
  all_goals rcases q with _ | _ | _ | q <;> exact id

/-- Process `p` holds the mutex of `op`, alone, and is where it was in `s₀`; the counters of `op`
are those of `s₀`, and who waited at the lock then is still there. -/
structure Blocked (p : ℕ) (op : Op) (s₀ s : Node) : Prop where
  stopped : s.pc p = s₀.pc p
  holds : (s.pc p).holds op
  locked : s.shared.locked op = true
  alone : ∀ q ≠ p, ¬(s.pc q).holds op
  counter : ∀ k i, s.shared.counter k op i = s₀.shared.counter k op i
  waits : ∀ q k i, s₀.pc q = .entering k op i → s.pc q = .entering k op i

/-- Who waits at a lock moves only when the mutex is free. -/
theorem Moves.free_of_entering {k : Counter} {op : Op} {i : FsIdx} {a : Act} {m m' : Shared}
    {c' : Pc} (h : Moves (.entering k op i) a m c' m') : m.locked op = false := by
  cases h with
  | lock _ hfree | lockDelay _ hfree => exact hfree

/-- A step of another process that is not its start-up. -/
theorem Blocked.step {p : ℕ} {op : Op} {s₀ s s' : Node} {a : ℕ × Act} (hs : Blocked p op s₀ s)
    (hp : a.1 ≠ p) (hinit : a.2 ≠ .initMutex op) (hstep : nodeStep s a = some s') :
    Blocked p op s₀ s' := by
  obtain ⟨c', hmove, hpc⟩ := nodeStep_moves hstep
  have hout := hs.alone a.1 hp
  have hkeep : s'.pc p = s.pc p := by rw [hpc, Function.update_of_ne hp.symm]
  have hmutex : ¬c'.holds op ∧ s'.shared.locked op = true := by
    rcases hmove.mutex op with ⟨-, hfree, -⟩ | ⟨-, hin, -⟩ | ⟨hout', hkept | hin | hini⟩
    · rw [hs.locked] at hfree
      exact absurd hfree nofun
    · exact absurd hin hout
    · exact ⟨hout', hkept.trans hs.locked⟩
    · exact absurd hin hout
    · exact absurd hini hinit
  refine ⟨hkeep.trans hs.stopped, hkeep ▸ hs.holds, hmutex.2, fun q hq => ?_, fun k i => ?_,
    fun q k i hwait => ?_⟩
  · by_cases hqa : q = a.1
    · rw [hqa, hpc, Function.update_self]
      exact hmutex.1
    · rw [hpc, Function.update_of_ne hqa]
      exact hs.alone q hq
  · rcases hmove.counter k op i with ⟨-, hkept⟩ | ⟨n, -, hin, -⟩
    · rw [hkept, hs.counter]
    · rw [hin] at hout
      exact absurd rfl hout
  · have hat := hs.waits q k i hwait
    by_cases hqa : q = a.1
    · -- the only step from a lock takes the mutex
      rw [← hqa, hat] at hmove
      exact absurd (hs.locked.symm.trans hmove.free_of_entering) nofun
    · rw [hpc, Function.update_of_ne hqa, hat]

/-- **A holder that has stopped blocks everybody.** Once a process that is inside takes no more
steps, because it is stopped or killed, then, unless a start-up breaks the mutex, no other process
gets inside, no counter of this kind of call changes, and who waits at the lock stays there. -/
theorem stopped_holder_blocks {as bs : List (ℕ × Act)} {s t : Node} {p : ℕ} {op : Op}
    (hquiet : Along nodeStep QuietInit Node.init as)
    (hrun : runSteps nodeStep Node.init as = some s) (hold : (s.pc p).holds op)
    (hstop : ∀ b ∈ bs, b.1 ≠ p ∧ b.2 ≠ .initMutex op)
    (hrun' : runSteps nodeStep s bs = some t) :
    (∀ q ≠ p, ¬(t.pc q).holds op) ∧
      (∀ k i, t.shared.counter k op i = s.shared.counter k op i) ∧
      ∀ q k i, s.pc q = .entering k op i → t.pc q = .entering k op i := by
  have hg := guarded_of_run hquiet hrun
  have hstart : Blocked p op s s := ⟨rfl, hold, hg.locked op p hold,
    fun q hq hin => hq (hg.exclusive op q p hin hold), fun _ _ => rfl, fun _ _ _ h => h⟩
  have hend : Blocked p op s t :=
    invariant_of_runSteps (P := fun (_ : Node) (b : ℕ × Act) => b.1 ≠ p ∧ b.2 ≠ .initMutex op)
      hstart (fun _ _ _ hs hb hstep => hs.step hb.1 hb.2 hstep)
      (along_of_mem (fun b hb _ => hstop b hb) s) hrun'
  exact ⟨hend.alone, hend.counter, hend.waits⟩

/-- A whole call of the other kind. -/
def lxstatCall : List (ℕ × Act) :=
  [(2, .begin .count .lxstat 0), (2, .lock), (2, .read), (2, .write .count .lxstat 0),
   (2, .unlock), (2, .finish)]

/-- Process 2 makes a call, and process 1 still waits. -/
theorem stopped_holder_blocks_stoppedRun : ∃ s t,
    runSteps nodeStep Node.init stoppedRun = some s ∧ runSteps nodeStep s lxstatCall = some t ∧
      t.shared.counter .count .lxstat 0 = 1 ∧ t.pc 1 = .entering .count .openFile 0 := by
  have hstop : ∀ b ∈ lxstatCall, b.1 ≠ 0 ∧ b.2 ≠ .initMutex .openFile := by decide
  refine ⟨_, _, rfl, rfl, rfl, ?_⟩
  have hblocked := stopped_holder_blocks (p := 0) stoppedRun_quiet rfl
    (show Pc.holds .openFile _ from rfl) hstop rfl
  exact hblocked.2.2 1 .count 0 rfl

end Ooops
