import Ooops.Attach
import Ooops.Basis.Run

/-!
# The Start-up Handshake

A process that starts attaches to three shared objects: the mutexes, the sleep data and the
parameters. Each of them is opened or, when there is none, created, and only its creator
sizes it. Creating and sizing are two steps, so that another process can find an object that
has no bytes yet. It takes a nap before it maps the object, but nothing makes it wait for the
creator, and a first access to the sleep data or to the parameters that comes too early kills
it (`access_before_truncate`).

* `handshakeStep` is one step of `Init_Shared_Mutex` in one process.
* `HandshakeInv` is the invariant. Its `Stage` says how far the publication is: there is one
  creator of the parameters, it publishes once, and nobody takes over anything before.
* `HandshakeInv.initSharedMutex_of_left`: who leaves has got what `initSharedMutex` gives.
* `handshake_of_sized`: where objects are mapped only after they were sized, no access comes
  too early, one process publishes, and everybody else gets what it has published.
-/

open Basis

namespace Ooops

/-- The shared objects `/my_mutex_<uid>`, `/my_dt_<uid>` and `/my_io_param_<uid>`. -/
inductive ShmObj
  | mutex
  | dT
  | param
  deriving DecidableEq, Repr

/-- Where a process is in `Init_Shared_Mutex`. -/
inductive StartPc
  | idle
  /-- At the first `shm_open` of an object. -/
  | opening (o : ShmObj)
  /-- At the `shm_open` with `O_EXCL`. -/
  | creating (o : ShmObj)
  | truncating (o : ShmObj)
  /-- At the `shm_open` of an object that somebody else has created meanwhile. -/
  | reopening (o : ShmObj)
  /-- In a nap, before the object is opened again or mapped. -/
  | napping (o : ShmObj) (again : Bool)
  | mapping (o : ShmObj)
  /-- At the first writes to the sleep data. -/
  | accessing
  /-- At `Publish_Parameters`. -/
  | publishing
  /-- At its last line, which sets `*p_Param_Mem_Ready`. -/
  | readying
  /-- At the loop that reads `*p_Param_Mem_Ready`. -/
  | waiting
  /-- At `Update_Parameters`. -/
  | updating
  | left
  /-- Killed by a bus error. -/
  | dead
  deriving DecidableEq, Repr

/-- The object that the next step of a process reads or writes through its mapping. -/
def StartPc.accesses : StartPc → Option ShmObj
  | .accessing => some .dT
  | .publishing | .readying | .waiting | .updating => some .param
  | _ => none

/-- The object that the next step of a process maps, if it is to be accessed. -/
def StartPc.maps : StartPc → Option ShmObj
  | .mapping .dT => some .dT
  | .mapping .param => some .param
  | _ => none

/-- A place that is neither before the sizing of an object nor at or behind the publication. -/
def StartPc.aside : StartPc → Bool
  | .truncating _ | .publishing | .readying | .updating | .left => false
  | _ => true

/-- The objects, the parameter block, and the processes. An object is there when it has a
creator. `published` notes who has published the parameters. -/
structure Handshake where
  creator : ShmObj → Option ℕ
  sized : ShmObj → Bool
  block : ParamBlock
  pc : ℕ → StartPc
  proc : ℕ → Proc
  toInit : ℕ → Bool
  published : List ℕ

/-- No object is there, and nobody has begun. -/
def Handshake.start (proc : ℕ → Proc) : Handshake where
  creator := fun _ => none
  sized := fun _ => false
  block := ParamBlock.zero
  pc := fun _ => .idle
  proc := proc
  toInit := fun _ => false
  published := []

namespace Handshake

/-- Process `p` goes on to `c`. -/
def go (s : Handshake) (p : ℕ) (c : StartPc) : Handshake :=
  { s with pc := Function.update s.pc p c }

theorem go_pc (s : Handshake) (p : ℕ) (c : StartPc) (q : ℕ) :
    (s.go p c).pc q = if q = p then c else s.pc q :=
  Function.update_apply ..

/-- A read or write of `p` to a mapped object: a bus error while it has no bytes. -/
def touch (s : Handshake) (p : ℕ) (o : ShmObj) (s' : Handshake) : Handshake :=
  if s.sized o then s' else s.go p .dead

end Handshake

/-- One step of process `e.1`, at the time stamp `e.2`. -/
def handshakeStep (config? : ℕ → Option Config) (s : Handshake) (e : ℕ × ℕ) :
    Option Handshake :=
  match s.pc e.1 with
  | .idle => some (s.go e.1 (.opening .mutex))
  | .opening o =>
      if s.creator o = none then some (s.go e.1 (.creating o))
      else some (s.go e.1 (.napping o false))
  | .creating o =>
      if s.creator o = none then
        some ({ s with creator := Function.update s.creator o (some e.1) }.go e.1 (.truncating o))
      else if o = ShmObj.mutex then some (s.go e.1 (.reopening o))
      else some (s.go e.1 (.napping o true))
  | .truncating o =>
      some ({ s with
        sized := Function.update s.sized o true
        toInit := if o = ShmObj.param then Function.update s.toInit e.1 true else s.toInit }.go e.1
          (.mapping o))
  | .reopening o =>
      if s.creator o = none then none
      else if o = ShmObj.mutex then some (s.go e.1 (.napping o false))
      else some (s.go e.1 (.mapping o))
  | .napping o again => some (s.go e.1 (if again then .reopening o else .mapping o))
  | .mapping .mutex => some (s.go e.1 (.opening .dT))
  | .mapping .dT => some (s.go e.1 .accessing)
  | .mapping .param => some (s.go e.1 (if s.toInit e.1 then .publishing else .waiting))
  | .accessing => some (s.touch e.1 .dT (s.go e.1 (.opening .param)))
  | .publishing =>
      let r := publishParameters (readConfig? (s.proc e.1) (config? e.1)) s.block e.2
      some (s.touch e.1 .param ({ s with
        proc := Function.update s.proc e.1 r.1
        block := { r.2 with paramMemReady := s.block.paramMemReady } }.go e.1 .readying))
  | .readying =>
      some (s.touch e.1 .param ({ s with
        block := { s.block with paramMemReady := 1 }
        published := e.1 :: s.published }.go e.1 .left))
  | .waiting =>
      some (s.touch e.1 .param
        (if s.block.paramMemReady = 0 then s else s.go e.1 .updating))
  | .updating =>
      some (s.touch e.1 .param ({ s with
        proc := Function.update s.proc e.1 (updateParameters (s.proc e.1) s.block) }.go e.1
          .left))
  | .left | .dead => none

/-! ### What the handshake is for -/

/-- No object is read or written before it has been sized. -/
def NoEarlyAccess (s : Handshake) (e : ℕ × ℕ) : Prop :=
  ∀ o ∈ (s.pc e.1).accesses, s.sized o = true

/-- The objects that are accessed are mapped only after they were sized. -/
def SizedWhenMapped (s : Handshake) (e : ℕ × ℕ) : Prop :=
  ∀ o ∈ (s.pc e.1).maps, s.sized o = true

instance (s : Handshake) (e : ℕ × ℕ) : Decidable (NoEarlyAccess s e) :=
  inferInstanceAs (Decidable (∀ o ∈ (s.pc e.1).accesses, s.sized o = true))

instance (s : Handshake) (e : ℕ × ℕ) : Decidable (SizedWhenMapped s e) :=
  inferInstanceAs (Decidable (∀ o ∈ (s.pc e.1).maps, s.sized o = true))

/-- The parameter block as process `c` publishes it. -/
def publishedBlock (config? : ℕ → Option Config) (proc : ℕ → Proc) (c rdtscp : ℕ) :
    ParamBlock :=
  (publishParameters (readConfig? (proc c) (config? c)) ParamBlock.zero rdtscp).2

/-- At most one process has published; and when a process has left, one has, and the process
is this one or holds the parameters of its block, and nothing else has changed in it. -/
structure Agreed (config? : ℕ → Option Config) (proc : ℕ → Proc) (s : Handshake) : Prop where
  once : s.published.length ≤ 1
  holds : ∀ p, s.pc p = .left → ∃ c rdtscp, s.published = [c] ∧
    s.block = publishedBlock config? proc c rdtscp ∧
    (p ≠ c → Propagated s.block (s.proc p) ∧ s.proc p = updateParameters (proc p) s.block)

/-! ### The invariant -/

/-- How far the publication is. -/
inductive Stage (config? : ℕ → Option Config) (proc : ℕ → Proc) (s : Handshake) : Prop
  | before (hblock : s.block = ParamBlock.zero) (hpub : s.published = [])
      (hpc : ∀ p, s.pc p ≠ .readying ∧ s.pc p ≠ .updating ∧ s.pc p ≠ .left)
  | during (c t : ℕ) (hc : s.pc c = .readying)
      (hblock : s.block = { publishedBlock config? proc c t with paramMemReady := 0 })
      (hpub : s.published = [])
      (hproc : s.proc c =
        (publishParameters (readConfig? (proc c) (config? c)) ParamBlock.zero t).1)
      (hpc : ∀ p ≠ c, s.pc p ≠ .publishing ∧ s.pc p ≠ .readying ∧ s.pc p ≠ .updating ∧
        s.pc p ≠ .left)
  | after (c t : ℕ) (hc : s.pc c = .left) (hinit : s.toInit c = true)
      (hblock : s.block = publishedBlock config? proc c t) (hpub : s.published = [c])
      (hproc : s.proc c =
        (publishParameters (readConfig? (proc c) (config? c)) ParamBlock.zero t).1)
      (hpc : ∀ p ≠ c, s.pc p ≠ .publishing ∧ s.pc p ≠ .readying)
      (hleft : ∀ p ≠ c, s.pc p = .left → s.proc p = updateParameters (proc p) s.block)

/-- The invariant: only the creator of the parameters initialises them, after it has sized
them; every process has its own variables until it publishes or leaves; and the publication
is at one of its stages. -/
structure HandshakeInv (config? : ℕ → Option Config) (proc : ℕ → Proc) (s : Handshake) :
    Prop where
  toInit : ∀ p, s.toInit p = true → s.creator .param = some p ∧ s.sized .param = true
  trunc : ∀ p o, s.pc p = .truncating o → s.creator o = some p
  role : ∀ p, s.pc p = .publishing ∨ s.pc p = .readying → s.toInit p = true
  own : ∀ p, s.pc p ≠ .readying → s.pc p ≠ .left → s.proc p = proc p
  stage : Stage config? proc s

variable {config? : ℕ → Option Config} {proc : ℕ → Proc} {s s' : Handshake} {e : ℕ × ℕ}

/-- Nobody has begun. -/
theorem handshakeInv_start : HandshakeInv config? proc (Handshake.start proc) where
  toInit := nofun
  trunc := nofun
  role := nofun
  own := fun _ _ _ => rfl
  stage := .before rfl rfl fun _ => ⟨nofun, nofun, nofun⟩

/-! ### The steps -/

/-- What one step does: it creates or sizes an object, it takes part in the publication, or
it only goes on. -/
inductive HandshakeMoves (config? : ℕ → Option Config) (s : Handshake) (e : ℕ × ℕ)
    (s' : Handshake) : Prop
  | quiet (c' : StartPc) (hs' : s' = s.go e.1 c')
      (hold : s.pc e.1 = .publishing ∨ s.pc e.1 = .readying → s.sized .param = false)
      (hleft : s.pc e.1 ≠ .left)
      (hnext : c'.aside = true ∨ c' = .publishing ∧ s.toInit e.1 = true)
      (haccess : ∀ o, c'.accesses = some o →
        s.pc e.1 = .mapping o ∨ (s.pc e.1).accesses = some o)
  | create (o : ShmObj) (hpc : s.pc e.1 = .creating o) (habsent : s.creator o = none)
      (hs' : s' = { s with creator := Function.update s.creator o (some e.1) }.go e.1
        (.truncating o))
  | truncate (o : ShmObj) (hpc : s.pc e.1 = .truncating o)
      (hs' : s' = { s with
        sized := Function.update s.sized o true
        toInit := if o = ShmObj.param then Function.update s.toInit e.1 true
          else s.toInit }.go e.1 (.mapping o))
  | publish (hpc : s.pc e.1 = .publishing)
      (hs' : s' = { s with
        proc := Function.update s.proc e.1
          (publishParameters (readConfig? (s.proc e.1) (config? e.1)) s.block e.2).1
        block := { (publishParameters (readConfig? (s.proc e.1) (config? e.1)) s.block e.2).2
          with paramMemReady := s.block.paramMemReady } }.go e.1 .readying)
  | ready (hpc : s.pc e.1 = .readying)
      (hs' : s' = { s with
        block := { s.block with paramMemReady := 1 }
        published := e.1 :: s.published }.go e.1 .left)
  | proceed (hpc : s.pc e.1 = .waiting) (hready : s.block.paramMemReady ≠ 0)
      (hs' : s' = s.go e.1 .updating)
  | update (hpc : s.pc e.1 = .updating)
      (hs' : s' = { s with
        proc := Function.update s.proc e.1 (updateParameters (s.proc e.1) s.block) }.go e.1
          .left)

/-- A step that only goes on, from a place that is not about the publication. -/
theorem HandshakeMoves.of_aside {c c' : StartPc} (hpc : s.pc e.1 = c)
    (hs' : some (s.go e.1 c') = some s') (hc : c.aside = true)
    (hnext : c'.aside = true ∨ c' = .publishing ∧ s.toInit e.1 = true)
    (haccess : ∀ o, c'.accesses = some o → c = .mapping o ∨ c.accesses = some o) :
    HandshakeMoves config? s e s' := by
  subst hpc
  refine .quiet c' (Option.some.inj hs').symm (fun hp => ?_) (fun hl => ?_) hnext haccess
  · obtain hp | hp := hp <;> exact absurd hc (by simp [hp, StartPc.aside])
  · exact absurd hc (by simp [hl, StartPc.aside])

/-- An access to an object without bytes. -/
theorem HandshakeMoves.of_unsized {o : ShmObj} {t : Handshake} (hsized : s.sized o = false)
    (hold : s.pc e.1 = .publishing ∨ s.pc e.1 = .readying → o = .param)
    (hleft : s.pc e.1 ≠ .left) (hs' : some (s.touch e.1 o t) = some s') :
    HandshakeMoves config? s e s' := by
  rw [Handshake.touch, if_neg (by simp [hsized])] at hs'
  refine .quiet .dead (Option.some.inj hs').symm (fun hp => ?_) hleft (.inl rfl) nofun
  rw [← hold hp, hsized]

/-- **Inversion of a step.** -/
theorem handshakeStep_moves (h : handshakeStep config? s e = some s') :
    HandshakeMoves config? s e s' := by
  rw [handshakeStep] at h
  split at h
  case h_1 hpc => exact .of_aside hpc h rfl (.inl rfl) nofun
  case h_2 o hpc =>
    split at h <;> exact .of_aside hpc h rfl (.inl rfl) nofun
  case h_3 o hpc =>
    split at h
    · exact .create o hpc ‹_› (Option.some.inj h).symm
    · split at h <;> exact .of_aside hpc h rfl (.inl rfl) nofun
  case h_4 o hpc => exact .truncate o hpc (Option.some.inj h).symm
  case h_5 o hpc =>
    split at h
    · exact absurd h nofun
    · split at h <;> exact .of_aside hpc h rfl (.inl rfl) nofun
  case h_6 o again hpc =>
    cases again <;>
      exact .of_aside hpc h rfl (.inl rfl) nofun
  case h_7 hpc => exact .of_aside hpc h rfl (.inl rfl) nofun
  case h_8 hpc => exact .of_aside hpc h rfl (.inl rfl) (by simp [StartPc.accesses])
  case h_9 hpc =>
    split at h
    · exact .of_aside hpc h rfl (.inr ⟨rfl, ‹_›⟩) (by simp [StartPc.accesses])
    · exact .of_aside hpc h rfl (.inl rfl) (by simp [StartPc.accesses])
  case h_10 hpc =>
    cases hsized : s.sized .dT with
    | true =>
        rw [Handshake.touch, if_pos hsized] at h
        exact .of_aside hpc h rfl (.inl rfl) nofun
    | false => exact .of_unsized hsized (by simp [hpc]) (by simp [hpc]) h
  case h_11 hpc =>
    cases hsized : s.sized .param with
    | true =>
        simp only [Handshake.touch, if_pos hsized] at h
        exact .publish hpc (Option.some.inj h).symm
    | false => exact .of_unsized hsized (fun _ => rfl) (by simp [hpc]) h
  case h_12 hpc =>
    cases hsized : s.sized .param with
    | true =>
        rw [Handshake.touch, if_pos hsized] at h
        exact .ready hpc (Option.some.inj h).symm
    | false => exact .of_unsized hsized (fun _ => rfl) (by simp [hpc]) h
  case h_13 hpc =>
    cases hsized : s.sized .param with
    | true =>
        rw [Handshake.touch, if_pos hsized] at h
        split at h
        · have hloop : s.go e.1 .waiting = s := by
            rw [Handshake.go, ← hpc, Function.update_eq_self]
          exact .of_aside hpc ((congrArg some hloop).trans h) rfl (.inl rfl) fun _ => .inr
        · exact .proceed hpc ‹_› (Option.some.inj h).symm
    | false => exact .of_unsized hsized (fun _ => rfl) (by simp [hpc]) h
  case h_14 hpc =>
    cases hsized : s.sized .param with
    | true =>
        rw [Handshake.touch, if_pos hsized] at h
        exact .update hpc (Option.some.inj h).symm
    | false => exact .of_unsized hsized (fun _ => rfl) (by simp [hpc]) h
  case h_15 | h_16 => exact absurd h nofun

/-! ### The invariant along a run -/

/-- A process that goes on beside the publication does not change its stage. -/
theorem Stage.move (h : Stage config? proc s) {p : ℕ} {c' : StartPc}
    (hblock : s'.block = s.block) (hpub : s'.published = s.published)
    (hproc : s'.proc = s.proc) (hinit : ∀ q, s.toInit q = true → s'.toInit q = true)
    (hmove : s'.pc = Function.update s.pc p c')
    (hold : s.pc p ≠ .readying ∧ s.pc p ≠ .left)
    (hnext : c' ≠ .readying ∧ c' ≠ .updating ∧ c' ≠ .left)
    (hother : ∀ c ≠ p, s.pc c = .readying ∨ s.toInit c = true → c' ≠ .publishing) :
    Stage config? proc s' := by
  have hpc (q : ℕ) : s'.pc q = if q = p then c' else s.pc q := by
    rw [hmove, Function.update_apply]
  cases h with
  | before hb hp hq =>
      refine .before (hblock.trans hb) (hpub.trans hp) fun q => ?_
      rw [hpc]
      split
      · exact hnext
      · exact hq q
  | during c t hc hb hp hcp hq =>
      have hne : c ≠ p := by
        rintro rfl
        exact hold.1 hc
      refine .during c t ?_ (hblock.trans hb) (hpub.trans hp) (hproc ▸ hcp) fun q hqc => ?_
      · rw [hpc, if_neg hne, hc]
      · rw [hpc]
        split
        · exact ⟨hother c hne (.inl hc), hnext⟩
        · exact hq q hqc
  | after c t hc hci hb hp hcp hq hl =>
      have hne : c ≠ p := by
        rintro rfl
        exact hold.2 hc
      refine .after c t ?_ (hinit c hci) (hblock.trans hb) (hpub.trans hp) (hproc ▸ hcp)
        (fun q hqc => ?_) fun q hqc hleft => ?_
      · rw [hpc, if_neg hne, hc]
      · rw [hpc]
        split
        · exact ⟨hother c hne (.inr hci), hnext.1⟩
        · exact hq q hqc
      · rw [hpc] at hleft
        split at hleft
        · exact absurd hleft hnext.2.2
        · rw [hproc, hblock]
          exact hl q hqc hleft

namespace HandshakeInv

/-- There is one creator of the parameters. -/
theorem toInit_unique (h : HandshakeInv config? proc s) {p q : ℕ} (hp : s.toInit p = true)
    (hq : s.toInit q = true) : p = q :=
  Option.some.inj ((h.toInit p hp).1.symm.trans (h.toInit q hq).1)

/-- The invariant after a step of `p` to `c'`, from what the step does to each part of the
state. -/
theorem of_move (h : HandshakeInv config? proc s) {p : ℕ} {c' : StartPc}
    (hmove : s'.pc = Function.update s.pc p c')
    (hcreator : ∀ o q, s.creator o = some q → s'.creator o = some q)
    (hsized : ∀ o, s.sized o = true → s'.sized o = true)
    (hinit : ∀ q, s.toInit q = true → s'.toInit q = true)
    (hinit' : ∀ q, s'.toInit q = true → s.toInit q = true ∨
      s'.creator .param = some q ∧ s'.sized .param = true)
    (hproc : ∀ q ≠ p, s'.proc q = s.proc q)
    (hown : c' ≠ .readying → c' ≠ .left → s'.proc p = proc p)
    (htrunc : ∀ o, c' = .truncating o → s'.creator o = some p)
    (hrole : c' = .publishing ∨ c' = .readying → s'.toInit p = true)
    (hstage : Stage config? proc s') : HandshakeInv config? proc s' := by
  have hpc (q : ℕ) : s'.pc q = if q = p then c' else s.pc q := by
    rw [hmove, Function.update_apply]
  refine ⟨fun q hq => ?_, fun q o hq => ?_, fun q hq => ?_, fun q hq hq' => ?_, hstage⟩
  · obtain hold | hnew := hinit' q hq
    · exact ⟨hcreator _ q (h.toInit q hold).1, hsized _ (h.toInit q hold).2⟩
    · exact hnew
  · rw [hpc] at hq
    split at hq
    case isTrue heq => exact heq ▸ htrunc o hq
    case isFalse => exact hcreator o q (h.trunc q o hq)
  · rw [hpc] at hq
    split at hq
    case isTrue heq => exact heq ▸ hrole hq
    case isFalse => exact hinit q (h.role q hq)
  · rw [hpc] at hq hq'
    split at hq
    case isTrue heq =>
      rw [if_pos heq] at hq'
      exact heq ▸ hown hq hq'
    case isFalse hne =>
      rw [if_neg hne] at hq'
      exact (hproc q hne).trans (h.own q hq hq')

/-- A process that goes on beside the publication. -/
theorem go (h : HandshakeInv config? proc s) {p : ℕ} {c' : StartPc}
    (hold : s.pc p = .publishing ∨ s.pc p = .readying → s.sized .param = false)
    (hleft : s.pc p ≠ .left) (hnext : c'.aside = true ∨ c' = .publishing ∧ s.toInit p = true) :
    HandshakeInv config? proc (s.go p c') := by
  have haside : c' ≠ .readying ∧ c' ≠ .updating ∧ c' ≠ .left ∧ ∀ o, c' ≠ .truncating o := by
    obtain hn | ⟨rfl, -⟩ := hnext
    · refine ⟨?_, ?_, ?_, fun o => ?_⟩ <;> rintro rfl <;> exact absurd hn nofun
    · exact ⟨nofun, nofun, nofun, fun _ => nofun⟩
  have hready : s.pc p ≠ .readying := by
    intro hr
    have hsized := (h.toInit p (h.role p (.inr hr))).2
    rw [hold (.inr hr)] at hsized
    exact absurd hsized nofun
  have hinit (hc : c' = .publishing) : s.toInit p = true := by
    obtain hn | ⟨-, hn⟩ := hnext
    · exact absurd (hc ▸ hn) nofun
    · exact hn
  have hstage : Stage config? proc (s.go p c') := by
    refine h.stage.move rfl rfl rfl (fun _ hq => hq) rfl ⟨hready, hleft⟩
      ⟨haside.1, haside.2.1, haside.2.2.1⟩ fun c hne hc hpub => hne ?_
    exact h.toInit_unique (hc.elim (fun hr => h.role c (.inr hr)) id) (hinit hpub)
  exact h.of_move rfl (fun _ _ => id) (fun _ => id) (fun _ => id) (fun _ => .inl)
    (fun _ _ => rfl) (fun _ _ => h.own p hready hleft) (fun o hc => absurd hc (haside.2.2.2 o))
    (fun hc => hinit (hc.resolve_right haside.1)) hstage

/-- An object is created. -/
theorem create (h : HandshakeInv config? proc s) {p : ℕ} {o : ShmObj}
    (hp : s.pc p = .creating o) (habsent : s.creator o = none) :
    HandshakeInv config? proc ({ s with creator := Function.update s.creator o (some p) }.go p
      (.truncating o)) := by
  have hkeep (o' : ShmObj) (q : ℕ) (hq : s.creator o' = some q) :
      Function.update s.creator o (some p) o' = some q := by
    have hne : o' ≠ o := by
      rintro rfl
      rw [habsent] at hq
      exact absurd hq nofun
    exact (Function.update_of_ne hne ..).trans hq
  refine h.of_move rfl hkeep (fun _ => id) (fun _ => id) (fun _ => .inl) (fun _ _ => rfl)
    (fun _ _ => h.own p (by simp [hp]) (by simp [hp])) (fun o' ho => ?_) (by simp) ?_
  · obtain rfl := StartPc.truncating.inj ho
    exact Function.update_self ..
  · exact h.stage.move rfl rfl rfl (fun _ => id) rfl (by simp [hp]) ⟨nofun, nofun, nofun⟩
      fun _ _ _ => nofun

/-- An object is sized by its creator, who initialises the parameters if it is theirs. -/
theorem truncate (h : HandshakeInv config? proc s) {p : ℕ} {o : ShmObj}
    (hp : s.pc p = .truncating o) :
    HandshakeInv config? proc ({ s with
      sized := Function.update s.sized o true
      toInit := if o = ShmObj.param then Function.update s.toInit p true else s.toInit }.go p
        (.mapping o)) := by
  have hself : Function.update s.sized o true o = true := Function.update_self ..
  have hsized (o' : ShmObj) (ho : s.sized o' = true) :
      Function.update s.sized o true o' = true := by
    rw [Function.update_apply]
    split
    · rfl
    · exact ho
  have hinit (q : ℕ) :
      (if o = ShmObj.param then Function.update s.toInit p true else s.toInit) q = true ↔
        s.toInit q = true ∨ q = p ∧ o = .param := by
    by_cases ho : o = .param
    · rw [if_pos ho, Function.update_apply]
      by_cases hq : q = p <;> simp [hq, ho]
    · rw [if_neg ho]
      simp [ho]
  refine h.of_move rfl (fun _ _ => id) hsized (fun q hq => (hinit q).mpr (.inl hq))
    (fun q hq => ?_) (fun _ _ => rfl) (fun _ _ => h.own p (by simp [hp]) (by simp [hp])) nofun
    (by simp) ?_
  · obtain hq | ⟨rfl, rfl⟩ := (hinit q).mp hq
    · exact .inl hq
    · exact .inr ⟨h.trunc q .param hp, hself⟩
  · exact h.stage.move rfl rfl rfl (fun q hq => (hinit q).mpr (.inl hq)) rfl (by simp [hp])
      ⟨nofun, nofun, nofun⟩ fun _ _ _ => nofun

/-- The parameters are written. -/
theorem publish (h : HandshakeInv config? proc s) {p t : ℕ} (hp : s.pc p = .publishing) :
    HandshakeInv config? proc ({ s with
      proc := Function.update s.proc p
        (publishParameters (readConfig? (s.proc p) (config? p)) s.block t).1
      block := { (publishParameters (readConfig? (s.proc p) (config? p)) s.block t).2
        with paramMemReady := s.block.paramMemReady } }.go p .readying) := by
  have hother {c : ℕ} {d : StartPc} (hc : s.pc c = d) (hd : d ≠ .publishing) : p ≠ c := by
    rintro rfl
    exact hd (hc.symm.trans hp)
  refine h.of_move rfl (fun _ _ => id) (fun _ => id) (fun _ => id) (fun _ => .inl)
    (fun q hne => Function.update_of_ne hne ..) (fun hne => absurd rfl hne) nofun
    (fun _ => h.role p (.inl hp)) ?_
  cases h.stage with
  | before hb hpub hq =>
      have hown : s.proc p = proc p := h.own p (by simp [hp]) (by simp [hp])
      refine .during p t (Function.update_self ..) ?_ hpub ?_ fun q hne => ?_
      · change { (publishParameters (readConfig? (s.proc p) (config? p)) s.block t).2
          with paramMemReady := s.block.paramMemReady } = _
        rw [hown, hb]
        rfl
      · rw [← hown, ← hb]
        exact Function.update_self ..
      · rw [Handshake.go_pc, if_neg hne]
        refine ⟨fun hpub' => hne ?_, hq q⟩
        exact h.toInit_unique (h.role q (.inl hpub')) (h.role p (.inl hp))
  | during c _ hc _ _ _ hq => exact absurd hp (hq p (hother hc nofun)).1
  | after c _ hc _ _ _ _ hq _ => exact absurd hp (hq p (hother hc nofun)).1

/-- The publication is over. -/
theorem ready (h : HandshakeInv config? proc s) {p : ℕ} (hp : s.pc p = .readying) :
    HandshakeInv config? proc ({ s with
      block := { s.block with paramMemReady := 1 }
      published := p :: s.published }.go p .left) := by
  refine h.of_move rfl (fun _ _ => id) (fun _ => id) (fun _ => id) (fun _ => .inl)
    (fun _ _ => rfl) (fun _ hne => absurd rfl hne) nofun (by simp) ?_
  cases h.stage with
  | before _ _ hq => exact absurd hp (hq p).1
  | during c t hc hb hpub hcp hq =>
      obtain rfl : p = c := by
        by_contra hne
        exact (hq p hne).2.1 hp
      refine .after p t (Function.update_self ..) (h.role p (.inr hp)) ?_ ?_ hcp (fun q hne => ?_)
        fun q hne hl => ?_
      · change { s.block with paramMemReady := 1 } = _
        rw [hb]
        rfl
      · change p :: s.published = [p]
        rw [hpub]
      · rw [Handshake.go_pc, if_neg hne]
        exact ⟨(hq q hne).1, (hq q hne).2.1⟩
      · rw [Handshake.go_pc, if_neg hne] at hl
        exact absurd hl (hq q hne).2.2.2
  | after c _ hc _ _ _ _ hq _ =>
      have hne : p ≠ c := by
        rintro rfl
        exact absurd (hp.symm.trans hc) nofun
      exact absurd hp (hq p hne).2

/-- A process finds the parameters ready. -/
theorem proceed (h : HandshakeInv config? proc s) {p : ℕ} (hp : s.pc p = .waiting)
    (hready : s.block.paramMemReady ≠ 0) : HandshakeInv config? proc (s.go p .updating) := by
  refine h.of_move rfl (fun _ _ => id) (fun _ => id) (fun _ => id) (fun _ => .inl)
    (fun _ _ => rfl) (fun _ _ => h.own p (by simp [hp]) (by simp [hp])) nofun (by simp) ?_
  cases h.stage with
  | before hb _ _ => exact absurd (by rw [hb]; rfl) hready
  | during c t _ hb _ _ _ => exact absurd (by rw [hb]) hready
  | after c t hc hci hb hpub hcp hq hl =>
      have hne : c ≠ p := by
        rintro rfl
        exact absurd (hp.symm.trans hc) nofun
      refine .after c t ?_ hci hb hpub hcp (fun q hqc => ?_) fun q hqc hleft => ?_
      · rw [Handshake.go_pc, if_neg hne, hc]
      · rw [Handshake.go_pc]
        split
        · exact ⟨nofun, nofun⟩
        · exact hq q hqc
      · rw [Handshake.go_pc] at hleft
        split at hleft
        · exact absurd hleft nofun
        · exact hl q hqc hleft

/-- A process takes the parameters over. -/
theorem update (h : HandshakeInv config? proc s) {p : ℕ} (hp : s.pc p = .updating) :
    HandshakeInv config? proc ({ s with
      proc := Function.update s.proc p (updateParameters (s.proc p) s.block) }.go p .left) := by
  refine h.of_move rfl (fun _ _ => id) (fun _ => id) (fun _ => id) (fun _ => .inl)
    (fun q hne => Function.update_of_ne hne ..) (fun _ hne => absurd rfl hne) nofun (by simp) ?_
  have hother {c : ℕ} {d : StartPc} (hc : s.pc c = d) (hd : d ≠ .updating) : p ≠ c := by
    rintro rfl
    exact hd (hc.symm.trans hp)
  cases h.stage with
  | before _ _ hq => exact absurd hp (hq p).2.1
  | during c _ hc _ _ _ hq => exact absurd hp (hq p (hother hc nofun)).2.2.1
  | after c t hc hci hb hpub hcp hq hl =>
      have hne : c ≠ p := (hother hc nofun).symm
      refine .after c t ((Function.update_of_ne hne ..).trans hc) hci hb hpub
        ((Function.update_of_ne hne ..).trans hcp) (fun q hqc => ?_) fun q hqc hleft => ?_
      · rw [Handshake.go_pc]
        split
        · exact ⟨nofun, nofun⟩
        · exact hq q hqc
      · by_cases hqp : q = p
        · have hown : s.proc p = proc p := h.own p (by simp [hp]) (by simp [hp])
          rw [hqp, ← hown]
          exact Function.update_self ..
        · rw [Handshake.go_pc, if_neg hqp] at hleft
          exact (Function.update_of_ne hqp ..).trans (hl q hqc hleft)

/-- **One step.** -/
theorem step (h : HandshakeInv config? proc s) (hs : handshakeStep config? s e = some s') :
    HandshakeInv config? proc s' := by
  cases handshakeStep_moves hs with
  | quiet c' hs' hold hleft hnext _ =>
      rw [hs']
      exact h.go hold hleft hnext
  | create o hp habsent hs' =>
      rw [hs']
      exact h.create hp habsent
  | truncate o hp hs' =>
      rw [hs']
      exact h.truncate hp
  | publish hp hs' =>
      rw [hs']
      exact h.publish hp
  | ready hp hs' =>
      rw [hs']
      exact h.ready hp
  | proceed hp hready hs' =>
      rw [hs']
      exact h.proceed hp hready
  | update hp hs' =>
      rw [hs']
      exact h.update hp

/-- What the stages leave to be agreed on. -/
theorem agreed (h : HandshakeInv config? proc s) : Agreed config? proc s := by
  cases h.stage with
  | before _ hpub hq =>
      exact ⟨by rw [hpub]; exact Nat.zero_le 1, fun p hp => absurd hp (hq p).2.2⟩
  | during c _ hc _ hpub _ hq =>
      refine ⟨by rw [hpub]; exact Nat.zero_le 1, fun p hp => ?_⟩
      by_cases hne : p = c
      · rw [hne, hc] at hp
        exact absurd hp nofun
      · exact absurd hp (hq p hne).2.2.2
  | after c t hc _ hb hpub _ _ hl =>
      refine ⟨by rw [hpub]; exact le_rfl, fun p hp => ⟨c, t, hpub, hb, fun hne => ?_⟩⟩
      rw [hl p hne hp]
      refine ⟨propagated_updateParameters ?_, rfl⟩
      rw [hb]
      exact Nat.zero_ne_one

/-- What a process has when it leaves is what `initSharedMutex` gives it, as the creator of
the block or with the block that is there. -/
theorem initSharedMutex_of_left (h : HandshakeInv config? proc s) {p : ℕ}
    (hp : s.pc p = .left) : ∃ param? t,
      initSharedMutex (proc p) (config? p) param? t = some (s.proc p, s.block) := by
  cases h.stage with
  | before _ _ hq => exact absurd hp (hq p).2.2
  | during c _ hc _ _ _ hq =>
      by_cases hne : p = c
      · rw [hne, hc] at hp
        exact absurd hp nofun
      · exact absurd hp (hq p hne).2.2.2
  | after c t _ _ hb _ hcp _ hl =>
      by_cases hpc : p = c
      · refine ⟨none, t, ?_⟩
        rw [hpc, hcp, hb]
        rfl
      · refine ⟨some s.block, t, ?_⟩
        have hready : s.block.paramMemReady ≠ 0 := by
          rw [hb]
          exact Nat.one_ne_zero
        rw [hl p hpc hp, initSharedMutex]
        simp only [if_neg hready]

end HandshakeInv

/-- Whoever is about to access an object has mapped it when it was sized. -/
theorem noEarlyAccess_step (h : ∀ t, NoEarlyAccess s t) (hmap : SizedWhenMapped s e)
    (hs : handshakeStep config? s e = some s') : ∀ t, NoEarlyAccess s' t := by
  -- the process that moves may be about to access an object; sizes stay
  have hgo {c' : StartPc} {t : Handshake} (hpc : t.pc = Function.update s.pc e.1 c')
      (hsized : ∀ o, s.sized o = true → t.sized o = true)
      (haccess : ∀ o, c'.accesses = some o →
        s.pc e.1 = .mapping o ∨ (s.pc e.1).accesses = some o) : ∀ r, NoEarlyAccess t r := by
    intro r o ho
    rw [hpc, Function.update_apply] at ho
    split at ho
    · obtain hm | ha := haccess o ho
      · refine hsized o (hmap o ?_)
        rw [hm]
        cases o with
        | mutex => cases c' <;> exact absurd ho nofun
        | dT | param => rfl
      · exact hsized o (h e o ha)
    · exact hsized o (h r o ho)
  cases handshakeStep_moves hs with
  | quiet c' hs' hold hleft hnext haccess =>
      rw [hs']
      exact hgo rfl (fun _ => id) haccess
  | create o hp habsent hs' =>
      rw [hs']
      exact hgo rfl (fun _ => id) nofun
  | truncate o hp hs' =>
      rw [hs']
      refine hgo rfl (fun o' ho => ?_) nofun
      by_cases ho' : o' = o
      · rw [ho']
        exact Function.update_self ..
      · exact (Function.update_of_ne ho' ..).trans ho
  | publish hp hs' =>
      rw [hs']
      exact hgo rfl (fun _ => id) fun o ho => .inr (by rw [hp]; exact ho)
  | ready hp hs' =>
      rw [hs']
      exact hgo rfl (fun _ => id) nofun
  | proceed hp hready hs' =>
      rw [hs']
      exact hgo rfl (fun _ => id) fun o ho => .inr (by rw [hp]; exact ho)
  | update hp hs' =>
      rw [hs']
      exact hgo rfl (fun _ => id) nofun

/-- **The handshake.** In every run in which objects are mapped only after they were sized,
nothing is accessed before that; and at its end at most one process has published, and every
process that has left agrees with it. -/
theorem handshake_of_sized (config? : ℕ → Option Config) (proc : ℕ → Proc)
    (es : List (ℕ × ℕ))
    (h : Along (handshakeStep config?) SizedWhenMapped (Handshake.start proc) es) :
    Along (handshakeStep config?) NoEarlyAccess (Handshake.start proc) es ∧
      ∀ s, runSteps (handshakeStep config?) (Handshake.start proc) es = some s →
        Agreed config? proc s := by
  constructor
  · exact h.imp_of_invariant (I := fun s => ∀ t, NoEarlyAccess s t) (fun _ _ => nofun)
      (fun _ _ _ hi hmap hs => noEarlyAccess_step hi hmap hs) fun _ e hi _ => hi e
  · intro s hs
    exact (invariant_of_runSteps handshakeInv_start (fun _ _ _ hi _ => hi.step) h hs).agreed

/-- Process 0 starts up, and process 1 after it. -/
def oneAfterTheOther : List (ℕ × ℕ) :=
  List.replicate 16 (0, 1) ++ List.replicate 13 (1, 2)

theorem handshake_of_sized_two :
    Along (handshakeStep fun _ => some twoServers) NoEarlyAccess
      (Handshake.start fun _ => Proc.start) oneAfterTheOther ∧
    ∃ s, runSteps (handshakeStep fun _ => some twoServers) (Handshake.start fun _ => Proc.start)
        oneAfterTheOther = some s ∧
      s.pc 1 = .left ∧ s.published = [0] ∧ Agreed (fun _ => some twoServers)
        (fun _ => Proc.start) s := by
  have hmap : Along (handshakeStep fun _ => some twoServers) SizedWhenMapped
      (Handshake.start fun _ => Proc.start) oneAfterTheOther := by
    decide +kernel
  obtain ⟨hearly, hagreed⟩ := handshake_of_sized _ _ _ hmap
  have hrun : (runSteps (handshakeStep fun _ => some twoServers)
      (Handshake.start fun _ => Proc.start) oneAfterTheOther).map (fun s => (s.pc 1, s.published)) =
        some (.left, [0]) := by
    decide +kernel
  obtain ⟨s, hs, hpc⟩ := Option.map_eq_some_iff.mp hrun
  obtain ⟨hpc, hpub⟩ := Prod.mk.inj hpc
  exact ⟨hearly, s, hs, hpc, hpub, hagreed s hs⟩

/-- Process 1 opens the sleep data that process 0 has created and not yet sized. -/
def earlyOpen : List (ℕ × ℕ) :=
  List.replicate 7 (0, 1) ++ List.replicate 7 (1, 1)

/-- Its first write kills it. -/
theorem access_before_truncate :
    ¬∀ (config? : ℕ → Option Config) (proc : ℕ → Proc) (es : List (ℕ × ℕ)),
      Along (handshakeStep config?) NoEarlyAccess (Handshake.start proc) es := by
  intro h
  have hrun : (runSteps (handshakeStep fun _ => none) (Handshake.start fun _ => Proc.start)
      earlyOpen).map (fun s => (s.pc 1, s.sized .dT)) = some (.accessing, false) := by
    decide +kernel
  obtain ⟨s, hs, hpc⟩ := Option.map_eq_some_iff.mp hrun
  obtain ⟨hpc, hsized⟩ := Prod.mk.inj hpc
  have hearly := (h (fun _ => none) (fun _ => Proc.start) (earlyOpen ++ [(1, 1)])).concat.2 s hs
    .dT (by rw [hpc]; rfl)
  exact absurd (hsized.symm.trans hearly) nofun

end Ooops
