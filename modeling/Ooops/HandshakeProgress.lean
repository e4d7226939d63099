import Ooops.Basis.Drain
import Ooops.Handshake

/-!
# Progress of the Start-up

A start-up waits for others at two places. An object that somebody else has created must be
sized before it is mapped, and the parameters must have been published. For both there is one
process that everybody waits for, the creator, and it is never at a place where it waits itself.
So all that have begun can finish.

Nobody takes over from a creator, though. If it is killed before it has sized the sleep data or
published the parameters, no other process on the node ever gets through its start-up.

* `startups_finish`: from every state that a run leads to in which objects are mapped only after
  they were sized, all start-ups can finish.
* `stopped_creator_blocks`: without the creator, nobody else finishes.
-/

open Basis

namespace Ooops

/-! ### What is left of a start-up -/

/-- The steps that are left when the object has been mapped. -/
def ShmObj.stepsBehind : ShmObj → ℕ
  | .mutex => 15
  | .dT => 9
  | .param => 2

/-- The steps that are left of a start-up, at most. -/
def StartPc.stepsLeft : StartPc → ℕ
  | .idle | .left | .dead => 0
  | .opening o => o.stepsBehind + 6
  | .creating o => o.stepsBehind + 5
  | .napping o true => o.stepsBehind + 4
  | .reopening o => o.stepsBehind + 3
  | .truncating o | .napping o false => o.stepsBehind + 2
  | .mapping o => o.stepsBehind + 1
  | .accessing => 9
  | .publishing | .waiting => 2
  | .readying | .updating => 1

/-- The object that a process counts on. -/
def StartPc.expects : StartPc → Option ShmObj
  | .reopening o | .napping o _ | .mapping o => some o
  | c => c.accesses

/-- Behind the first writes to the sleep data. -/
def StartPc.past : StartPc → Bool
  | .opening o | .creating o | .truncating o | .reopening o | .napping o _ | .mapping o =>
      o = .param
  | .publishing | .readying | .waiting | .updating | .left => true
  | .idle | .accessing | .dead => false

theorem StartPc.stepsLeft_le (c : StartPc) : c.stepsLeft ≤ 21 := by
  cases c with
  | opening o | creating o | reopening o | truncating o | mapping o =>
      cases o <;> norm_num [stepsLeft, ShmObj.stepsBehind]
  | napping o again =>
      cases o <;> cases again <;> norm_num [stepsLeft, ShmObj.stepsBehind]
  | _ => norm_num [stepsLeft]

/-- A step of a process that has begun. -/
def Begun (s : Handshake) (e : ℕ × ℕ) : Prop := s.pc e.1 ≠ .idle ∧ SizedWhenMapped s e

variable {config? : ℕ → Option Config} {proc : ℕ → Proc} {s s' : Handshake} {e : ℕ × ℕ}

/-! ### What a step leaves -/

/-- A step moves one process and takes nothing back. -/
theorem handshakeStep_frame (h : handshakeStep config? s e = some s') :
    (∃ c', s'.pc = Function.update s.pc e.1 c') ∧
      (∀ o c, s.creator o = some c → s'.creator o = some c) ∧
      (∀ o, s.sized o = true → s'.sized o = true) ∧
      (∀ p, s.toInit p = true → s'.toInit p = true) := by
  cases handshakeStep_moves h with
  | quiet c' hs' hold hleft hnext haccess =>
      rw [hs']
      exact ⟨⟨c', rfl⟩, fun _ _ => id, fun _ => id, fun _ => id⟩
  | create o hpc habsent hs' =>
      rw [hs']
      refine ⟨⟨_, rfl⟩, fun o' c hc => ?_, fun _ => id, fun _ => id⟩
      have hne : o' ≠ o := by
        rintro rfl
        rw [habsent] at hc
        cases hc
      exact (Function.update_of_ne hne ..).trans hc
  | truncate o hpc hs' =>
      rw [hs']
      refine ⟨⟨_, rfl⟩, fun _ _ => id, fun o' ho => ?_, fun p hp => ?_⟩
      · by_cases heq : o' = o
        · rw [heq]
          exact Function.update_self ..
        · exact (Function.update_of_ne heq ..).trans ho
      · change (if o = ShmObj.param then Function.update s.toInit e.1 true else s.toInit) p = true
        split_ifs
        · by_cases heq : p = e.1
          · rw [heq, Function.update_self]
          · rw [Function.update_of_ne heq, hp]
        · exact hp
  | publish hpc hs' | ready hpc hs' | proceed hpc hready hs' | update hpc hs' =>
      rw [hs']
      exact ⟨⟨_, rfl⟩, fun _ _ => id, fun _ => id, fun _ => id⟩

/-- An object gets its creator in one step, and a size in another one. -/
theorem handshakeStep_objects (h : handshakeStep config? s e = some s') :
    (∀ o c, s'.creator o = some c → s.creator o = some c ∨
      c = e.1 ∧ s'.pc e.1 = .truncating o) ∧
    (∀ o, s'.sized o = true → s.sized o = true ∨ s.pc e.1 = .truncating o) ∧
    (s'.block.paramMemReady = 0 → s.block.paramMemReady = 0) ∧
    (s.block.paramMemReady = 0 → s'.block.paramMemReady = 0 ∨ s.pc e.1 = .readying) := by
  cases handshakeStep_moves h with
  | quiet c' hs' hold hleft hnext haccess =>
      rw [hs']
      exact ⟨fun _ _ => .inl, fun _ => .inl, id, .inl⟩
  | create o hpc habsent hs' =>
      rw [hs']
      refine ⟨fun o' c hc => ?_, fun _ => .inl, id, .inl⟩
      change Function.update s.creator o (some e.1) o' = some c at hc
      by_cases heq : o' = o
      · rw [heq, Function.update_self] at hc
        rw [heq]
        exact .inr ⟨(Option.some.inj hc).symm, Function.update_self ..⟩
      · rw [Function.update_of_ne heq] at hc
        exact .inl hc
  | truncate o hpc hs' =>
      rw [hs']
      refine ⟨fun _ _ => .inl, fun o' ho => ?_, id, .inl⟩
      by_cases heq : o' = o
      · exact .inr (heq ▸ hpc)
      · exact .inl ((Function.update_of_ne heq ..).symm.trans ho)
  | publish hpc hs' =>
      rw [hs']
      exact ⟨fun _ _ => .inl, fun _ => .inl, id, .inl⟩
  | ready hpc hs' =>
      rw [hs']
      exact ⟨fun _ _ => .inl, fun _ => .inl, fun hz => absurd hz Nat.one_ne_zero,
        fun _ => .inr hpc⟩
  | proceed hpc hready hs' | update hpc hs' =>
      rw [hs']
      exact ⟨fun _ _ => .inl, fun _ => .inl, id, .inl⟩

/-- **How a process goes on**, and what it has found. -/
inductive StartMoves (s : Handshake) (p : ℕ) : StartPc → StartPc → Prop
  | begin : StartMoves s p .idle (.opening .mutex)
  | absent (o : ShmObj) : StartMoves s p (.opening o) (.creating o)
  | found (o : ShmObj) (h : s.creator o ≠ none) : StartMoves s p (.opening o) (.napping o false)
  | create (o : ShmObj) : StartMoves s p (.creating o) (.truncating o)
  | lostMutex (h : s.creator .mutex ≠ none) :
      StartMoves s p (.creating .mutex) (.reopening .mutex)
  | lost (o : ShmObj) (h : s.creator o ≠ none) : StartMoves s p (.creating o) (.napping o true)
  | truncate (o : ShmObj) : StartMoves s p (.truncating o) (.mapping o)
  | reopenMutex (h : s.creator .mutex ≠ none) :
      StartMoves s p (.reopening .mutex) (.napping .mutex false)
  | reopen (o : ShmObj) (h : s.creator o ≠ none) : StartMoves s p (.reopening o) (.mapping o)
  | napAgain (o : ShmObj) : StartMoves s p (.napping o true) (.reopening o)
  | nap (o : ShmObj) : StartMoves s p (.napping o false) (.mapping o)
  | mapMutex : StartMoves s p (.mapping .mutex) (.opening .dT)
  | mapDT : StartMoves s p (.mapping .dT) .accessing
  | mapInit (h : s.toInit p = true) : StartMoves s p (.mapping .param) .publishing
  | mapWait (h : s.toInit p = false) : StartMoves s p (.mapping .param) .waiting
  | access (h : s.sized .dT = true) : StartMoves s p .accessing (.opening .param)
  | publish : StartMoves s p .publishing .readying
  | ready : StartMoves s p .readying .left
  | spin (h : s.block.paramMemReady = 0) : StartMoves s p .waiting .waiting
  | proceed (h : s.block.paramMemReady ≠ 0) : StartMoves s p .waiting .updating
  | update : StartMoves s p .updating .left
  | die (c : StartPc) (o : ShmObj) (h : c.accesses = some o) (hsized : s.sized o = false) :
      StartMoves s p c .dead

/-- An access goes on as it should or kills the process. -/
theorem StartMoves.of_touch {c : StartPc} {o : ShmObj} {t : Handshake} (hpc : s.pc e.1 = c)
    (ho : c.accesses = some o) (h : some (s.touch e.1 o t) = some s')
    (hmove : s.sized o = true → StartMoves s e.1 c (t.pc e.1)) :
    StartMoves s e.1 (s.pc e.1) (s'.pc e.1) := by
  rw [hpc]
  obtain rfl := Option.some.inj h
  rw [Handshake.touch]
  split
  · exact hmove ‹_›
  · rw [Handshake.go_pc, if_pos rfl]
    exact .die c o ho (Bool.eq_false_of_not_eq_true ‹_›)

theorem handshakeStep_control (h : handshakeStep config? s e = some s') :
    StartMoves s e.1 (s.pc e.1) (s'.pc e.1) := by
  have hgo {t : Handshake} {c c' : StartPc} (hpc : s.pc e.1 = c) (ht : some (t.go e.1 c') = some s')
      (hmove : StartMoves s e.1 c c') : StartMoves s e.1 (s.pc e.1) (s'.pc e.1) := by
    obtain rfl := Option.some.inj ht
    rw [hpc, Handshake.go_pc, if_pos rfl]
    exact hmove
  have hself {t : Handshake} {c' : StartPc} : (t.go e.1 c').pc e.1 = c' := by
    rw [Handshake.go_pc, if_pos rfl]
  rw [handshakeStep] at h
  split at h
  case h_1 hpc => exact hgo hpc h .begin
  case h_2 o hpc =>
    split at h
    · exact hgo hpc h (.absent o)
    · exact hgo hpc h (.found o ‹_›)
  case h_3 o hpc =>
    split at h
    · exact hgo hpc h (.create o)
    · split at h
      · subst o
        exact hgo hpc h (.lostMutex ‹_›)
      · exact hgo hpc h (.lost o ‹_›)
  case h_4 o hpc => exact hgo hpc h (.truncate o)
  case h_5 o hpc =>
    split at h
    · cases h
    · split at h
      · subst o
        exact hgo hpc h (.reopenMutex ‹_›)
      · exact hgo hpc h (.reopen o ‹_›)
  case h_6 o again hpc =>
    cases again with
    | true => exact hgo hpc h (.napAgain o)
    | false => exact hgo hpc h (.nap o)
  case h_7 hpc => exact hgo hpc h .mapMutex
  case h_8 hpc => exact hgo hpc h .mapDT
  case h_9 hpc =>
    split at h
    · exact hgo hpc h (.mapInit ‹_›)
    · exact hgo hpc h (.mapWait (Bool.eq_false_of_not_eq_true ‹_›))
  case h_10 hpc => exact .of_touch hpc rfl h fun hsized => hself ▸ .access hsized
  case h_11 hpc => exact .of_touch hpc rfl h fun _ => hself ▸ .publish
  case h_12 hpc => exact .of_touch hpc rfl h fun _ => hself ▸ .ready
  case h_13 hpc =>
    refine .of_touch hpc rfl h fun _ => ?_
    split
    · rw [hpc]
      exact .spin ‹_›
    · exact hself ▸ .proceed ‹_›
  case h_14 hpc => exact .of_touch hpc rfl h fun _ => hself ▸ .update
  case h_15 | h_16 => cases h

/-- Every step but the first brings a start-up nearer to its end, unless it waits for the
parameters. -/
theorem StartMoves.stepsLeft_lt {p : ℕ} {c c' : StartPc} (h : StartMoves s p c c')
    (hidle : c ≠ .idle) (hwait : c = .waiting → s.block.paramMemReady ≠ 0) :
    c'.stepsLeft < c.stepsLeft := by
  cases h with
  | begin => exact absurd rfl hidle
  | spin hzero => exact absurd hzero (hwait rfl)
  | die _ o hacc _ =>
      cases c with
      | accessing | publishing | readying | waiting | updating => norm_num [StartPc.stepsLeft]
      | _ => cases hacc
  | _ => norm_num [StartPc.stepsLeft, ShmObj.stepsBehind]

/-- What a process counts on is there. -/
theorem StartMoves.expects {p : ℕ} {c c' : StartPc} (h : StartMoves s p c c') {o : ShmObj}
    (ho : c'.expects = some o) : s.creator o ≠ none ∨ c.expects = some o ∨ c = .truncating o := by
  cases h <;> simp_all [StartPc.expects, StartPc.accesses]

/-- Who gets past the sleep data has found them sized. -/
theorem StartMoves.past {p : ℕ} {c c' : StartPc} (h : StartMoves s p c c') (hc : c'.past = true) :
    c.past = true ∨ s.sized .dT = true := by
  cases h <;> simp_all [StartPc.past]

/-! ### Who waits for whom -/

/-- On the way of the creator of the parameters to their publication. -/
def WillPublish (s : Handshake) (c : ℕ) : Prop :=
  s.pc c = .truncating .param ∨ s.pc c = .mapping .param ∧ s.toInit c = true ∨
    s.pc c = .publishing ∨ s.pc c = .readying

/-- Everything that a process waits for is on its way: an object without a size has a creator that
is about to size it, what a process counts on is there, the sleep data have been sized when
somebody is past them, and parameters that are not ready have a creator that publishes them. -/
structure Awaited (s : Handshake) : Prop where
  sizing : ∀ o c, s.creator o = some c → s.sized o = true ∨ s.pc c = .truncating o
  created : ∀ p o, (s.pc p).expects = some o → s.creator o ≠ none
  past : ∀ p, (s.pc p).past = true → s.sized .dT = true
  publisher : s.block.paramMemReady = 0 → ∀ c, s.creator .param = some c → WillPublish s c

theorem awaited_start : Awaited (Handshake.start proc) where
  sizing := nofun
  created := nofun
  past := nofun
  publisher := fun _ => nofun

theorem pc_of_ne (h : handshakeStep config? s e = some s') {p : ℕ} (hp : p ≠ e.1) :
    s'.pc p = s.pc p := by
  obtain ⟨⟨c', hpc⟩, -⟩ := handshakeStep_frame h
  rw [hpc, Function.update_of_ne hp]

/-- The creator of the parameters goes on to their publication. -/
theorem WillPublish.step (hinv : HandshakeInv config? proc s)
    (h : handshakeStep config? s e = some s') (hs : WillPublish s e.1) :
    WillPublish s' e.1 ∨ s'.block.paramMemReady ≠ 0 := by
  have hsized (hinit : s.toInit e.1 = true) : s.sized .param = true := (hinv.toInit e.1 hinit).2
  rcases hs with hpc | ⟨hpc, hinit⟩ | hpc | hpc <;> rw [handshakeStep, hpc] at h
  · obtain rfl := Option.some.inj h
    refine .inl (.inr (.inl ⟨?_, ?_⟩))
    · rw [Handshake.go_pc, if_pos rfl]
    · exact Function.update_self ..
  · obtain rfl := Option.some.inj h
    refine .inl (.inr (.inr (.inl ?_)))
    rw [if_pos hinit, Handshake.go_pc, if_pos rfl]
  · simp only [Handshake.touch, if_pos (hsized (hinv.role _ (.inl hpc)))] at h
    obtain rfl := Option.some.inj h
    refine .inl (.inr (.inr (.inr ?_)))
    rw [Handshake.go_pc, if_pos rfl]
  · simp only [Handshake.touch, if_pos (hsized (hinv.role _ (.inr hpc)))] at h
    obtain rfl := Option.some.inj h
    exact .inr Nat.one_ne_zero

theorem WillPublish.of_ne (h : handshakeStep config? s e = some s') {c : ℕ} (hc : c ≠ e.1)
    (hs : WillPublish s c) : WillPublish s' c := by
  obtain ⟨-, -, -, hinit⟩ := handshakeStep_frame h
  rw [WillPublish, pc_of_ne h hc]
  exact hs.imp_right (Or.imp_left fun hmap => ⟨hmap.1, hinit c hmap.2⟩)

/-- Every step keeps it so. -/
theorem Awaited.step (hinv : HandshakeInv config? proc s) (hs : Awaited s)
    (h : handshakeStep config? s e = some s') : Awaited s' := by
  obtain ⟨-, hcreator, hsized, -⟩ := handshakeStep_frame h
  obtain ⟨hnew, -, hready, -⟩ := handshakeStep_objects h
  have hmove := handshakeStep_control h
  refine ⟨fun o c hc => ?_, fun p o ho => ?_, fun p hp => ?_, fun hzero c hc => ?_⟩
  · rcases hnew o c hc with hold | ⟨rfl, hpc⟩
    · rcases hs.sizing o c hold with hdone | hpc
      · exact .inl (hsized o hdone)
      · by_cases hce : c = e.1
        · -- the creator sizes its object
          rw [hce] at hpc
          rw [handshakeStep, hpc] at h
          obtain rfl := Option.some.inj h
          exact .inl (Function.update_self ..)
        · exact .inr ((pc_of_ne h hce).trans hpc)
    · exact .inr hpc
  · have hkeep : s.creator o ≠ none → s'.creator o ≠ none := fun hne => by
      obtain ⟨c, hc⟩ := Option.ne_none_iff_exists'.mp hne
      rw [hcreator o c hc]
      exact Option.some_ne_none c
    by_cases hpe : p = e.1
    · rw [hpe] at ho
      rcases hmove.expects ho with hne | hold | htrunc
      · exact hkeep hne
      · exact hkeep (hs.created e.1 o hold)
      · exact hkeep (by rw [hinv.trunc e.1 o htrunc]; exact Option.some_ne_none _)
    · rw [pc_of_ne h hpe] at ho
      exact hkeep (hs.created p o ho)
  · by_cases hpe : p = e.1
    · rw [hpe] at hp
      rcases hmove.past hp with hold | hdone
      · exact hsized _ (hs.past e.1 hold)
      · exact hsized _ hdone
    · rw [pc_of_ne h hpe] at hp
      exact hsized _ (hs.past p hp)
  · rcases hnew .param c hc with hold | ⟨rfl, hpc⟩
    · have hpub := hs.publisher (hready hzero) c hold
      by_cases hce : c = e.1
      · rw [hce] at hpub ⊢
        exact (hpub.step hinv h).resolve_right (not_not.mpr hzero)
      · exact hpub.of_ne h hce
    · exact .inl hpc

/-! ### The start-ups can finish -/

/-- The invariants, while objects are mapped only after they were sized; only the processes of `S`
are in their start-up, and none has been killed. -/
structure Underway (config? : ℕ → Option Config) (proc : ℕ → Proc) (S : Finset ℕ)
    (s : Handshake) : Prop where
  inv : HandshakeInv config? proc s
  awaited : Awaited s
  early : ∀ e, NoEarlyAccess s e
  alive : ∀ p, s.pc p ≠ .dead
  inside : ∀ p, (s.pc p).stepsLeft ≠ 0 → p ∈ S

theorem Underway.step {S : Finset ℕ} (hs : Underway config? proc S s)
    (hmap : SizedWhenMapped s e) (hmem : e.1 ∈ S) (h : handshakeStep config? s e = some s') :
    Underway config? proc S s' := by
  refine ⟨hs.inv.step h, hs.awaited.step hs.inv h, noEarlyAccess_step hs.early hmap h,
    fun p hdead => ?_, fun p hp => ?_⟩
  · by_cases hpe : p = e.1
    · rw [hpe] at hdead
      have hmove := handshakeStep_control h
      rw [hdead] at hmove
      generalize hc : s.pc e.1 = c at hmove
      cases hmove with
      | die _ o hacc hsized =>
          have hready := hs.early e o (by rw [hc]; exact hacc)
          rw [hsized] at hready
          cases hready
    · exact hs.alive p ((pc_of_ne h hpe).symm.trans hdead)
  · by_cases hpe : p = e.1
    · rwa [hpe]
    · rw [pc_of_ne h hpe] at hp
      exact hs.inside p hp

/-- After a run, only processes that have taken a step are in their start-up. -/
theorem underway_of_run {es : List (ℕ × ℕ)}
    (hmap : Along (handshakeStep config?) SizedWhenMapped (Handshake.start proc) es)
    (hrun : runSteps (handshakeStep config?) (Handshake.start proc) es = some s) :
    Underway config? proc (es.map Prod.fst).toFinset s := by
  induction es using List.reverseRecOn generalizing s with
  | nil =>
      obtain rfl := Option.some.inj hrun
      exact ⟨handshakeInv_start, awaited_start, fun _ => nofun, fun _ => nofun,
        fun p hp => absurd rfl hp⟩
  | append_singleton es e ih =>
      obtain ⟨m, hm, hstep⟩ := runSteps_concat_eq_some.mp hrun
      obtain ⟨hmap', he⟩ := (along_concat_iff hm).mp hmap
      have hm' := ih hmap' hm
      rw [List.map_append, List.toFinset_append]
      have hmore : Underway config? proc ((es.map Prod.fst).toFinset ∪
          (([e] : List (ℕ × ℕ)).map Prod.fst).toFinset) m :=
        ⟨hm'.inv, hm'.awaited, hm'.early, hm'.alive,
          fun p hp => Finset.mem_union_left _ (hm'.inside p hp)⟩
      exact hmore.step he
        (Finset.mem_union_right _ (List.mem_toFinset.mpr (List.mem_singleton_self _))) hstep

/-- A process in its start-up has a step. -/
theorem exists_handshakeStep (config? : ℕ → Option Config) {p : ℕ} (t : ℕ)
    (hpc : (s.pc p).stepsLeft ≠ 0) (hopen : ∀ o, s.pc p = .reopening o → s.creator o ≠ none) :
    ∃ s', handshakeStep config? s (p, t) = some s' := by
  simp only [handshakeStep]
  cases hp : s.pc p with
  | idle | left | dead => exact absurd (by rw [hp]; rfl) hpc
  | reopening o =>
      simp only [if_neg (hopen o hp)]
      split <;> exact ⟨_, rfl⟩
  | opening o | creating o =>
      dsimp only
      split_ifs <;> exact ⟨_, rfl⟩
  | mapping o => cases o <;> exact ⟨_, rfl⟩
  | truncating | napping | accessing | publishing | readying | waiting | updating =>
      exact ⟨_, rfl⟩

/-- A process that need not wait has a step that brings it nearer to its end. -/
theorem Underway.exists_stepOf {S : Finset ℕ} (hs : Underway config? proc S s) {p : ℕ}
    (hleft : (s.pc p).stepsLeft ≠ 0) (hmap : SizedWhenMapped s (p, 0))
    (hwait : s.pc p = .waiting → s.block.paramMemReady ≠ 0) :
    ∃ e s', Begun s e ∧ handshakeStep config? s e = some s' ∧ Underway config? proc S s' ∧
      ∑ q ∈ S, (s'.pc q).stepsLeft < ∑ q ∈ S, (s.pc q).stepsLeft := by
  obtain ⟨s', h⟩ := exists_handshakeStep config? 0 hleft fun o ho =>
    hs.awaited.created p o (by rw [ho]; rfl)
  have hidle : s.pc p ≠ .idle := fun hpc => hleft (by rw [hpc]; rfl)
  have hlt := (handshakeStep_control h).stepsLeft_lt hidle hwait
  obtain ⟨⟨c', hpc⟩, -⟩ := handshakeStep_frame h
  have hmem := hs.inside p hleft
  refine ⟨(p, 0), s', ⟨hidle, hmap⟩, h, hs.step hmap hmem h, ?_⟩
  rw [hpc, Function.update_self] at hlt
  rw [hpc]
  exact sum_update_lt hmem hlt

/-- Whoever publishes the parameters does not wait. -/
theorem WillPublish.not_waiting {c : ℕ} (h : WillPublish s c) :
    (s.pc c).stepsLeft ≠ 0 ∧ s.pc c ≠ .waiting := by
  rcases h with hpc | ⟨hpc, -⟩ | hpc | hpc <;> rw [hpc] <;> exact ⟨by decide, nofun⟩

/-- While a start-up is not finished, some process has a step. -/
theorem Underway.exists_step {S : Finset ℕ} (hs : Underway config? proc S s)
    (hwork : ∑ p ∈ S, (s.pc p).stepsLeft ≠ 0) :
    ∃ e s', Begun s e ∧ handshakeStep config? s e = some s' ∧ Underway config? proc S s' ∧
      ∑ q ∈ S, (s'.pc q).stepsLeft < ∑ q ∈ S, (s.pc q).stepsLeft := by
  by_cases htrunc : ∃ p o, s.pc p = .truncating o
  · -- an object is about to be sized
    obtain ⟨p, o, hp⟩ := htrunc
    refine hs.exists_stepOf (by rw [hp]; exact Nat.succ_ne_zero _) (fun o' ho' => ?_) fun hw => ?_
    · rw [hp] at ho'
      cases ho'
    · rw [hp] at hw
      cases hw
  · have hsized : ∀ o, s.creator o ≠ none → s.sized o = true := by
      intro o ho
      obtain ⟨c, hc⟩ := Option.ne_none_iff_exists'.mp ho
      exact (hs.awaited.sizing o c hc).resolve_right fun hpc => htrunc ⟨c, o, hpc⟩
    have hmap : ∀ p, SizedWhenMapped s (p, 0) := by
      intro p o ho
      have hpc : s.pc p = .mapping o := by
        generalize s.pc p = c at ho
        cases c with
        | mapping o' => cases o' <;> cases ho <;> rfl
        | _ => cases ho
      exact hsized o (hs.awaited.created p o (by rw [hpc]; rfl))
    obtain ⟨p, -, hleft⟩ := Finset.exists_ne_zero_of_sum_ne_zero hwork
    by_cases hwait : s.pc p = .waiting ∧ s.block.paramMemReady = 0
    · -- the one that `p` waits for
      obtain ⟨c, hc⟩ := Option.ne_none_iff_exists'.mp
        (hs.awaited.created p .param (by rw [hwait.1]; rfl))
      obtain ⟨hleft', hne⟩ := (hs.awaited.publisher hwait.2 c hc).not_waiting
      exact hs.exists_stepOf hleft' (hmap c) fun hpc => absurd hpc hne
    · exact hs.exists_stepOf hleft (hmap p) fun hpc hzero => hwait ⟨hpc, hzero⟩

/-- A start-up without steps left is over, unless the process was killed. -/
theorem StartPc.stepsLeft_eq_zero {c : StartPc} (h : c.stepsLeft = 0) (hdead : c ≠ .dead) :
    c = .idle ∨ c = .left := by
  cases c with
  | idle => exact .inl rfl
  | left => exact .inr rfl
  | dead => exact absurd rfl hdead
  | napping o again => cases again <;> exact absurd h (Nat.succ_ne_zero _)
  | opening | creating | truncating | reopening | mapping | accessing | publishing | readying |
    waiting | updating => exact absurd h (Nat.succ_ne_zero _)

/-- **All start-ups can finish.** From every state that a run leads to in which objects are mapped
only after they were sized, there is a run of the same kind in which nobody begins and after which
everybody who has begun has left, of at most 21 steps for every process. -/
theorem startups_finish {es : List (ℕ × ℕ)}
    (hmap : Along (handshakeStep config?) SizedWhenMapped (Handshake.start proc) es)
    (hrun : runSteps (handshakeStep config?) (Handshake.start proc) es = some s) :
    ∃ bs t, Along (handshakeStep config?) Begun s bs ∧
      runSteps (handshakeStep config?) s bs = some t ∧
      (∀ p, t.pc p = .idle ∨ t.pc p = .left) ∧
      bs.length ≤ (es.map Prod.fst).toFinset.card * 21 := by
  obtain ⟨bs, t, halong, hrun', ht, hdone, hlen⟩ := drain
    (fun s hs hwork => Underway.exists_step hs hwork) (underway_of_run hmap hrun)
  refine ⟨bs, t, halong, hrun', fun p => StartPc.stepsLeft_eq_zero ?_ (ht.alive p), ?_⟩
  · by_contra hleft
    exact hleft (Finset.sum_eq_zero_iff.mp hdone p (ht.inside p hleft))
  · exact hlen.trans (Finset.sum_le_card_nsmul _ _ 21 fun p _ => StartPc.stepsLeft_le _)

/-- Process 0 has sized the parameters, process 1 has come to the sleep data. -/
def twoStarts : List (ℕ × ℕ) := List.replicate 13 (0, 1) ++ List.replicate 6 (1, 1)

theorem startups_finish_twoStarts : ∃ s bs t,
    runSteps (handshakeStep fun _ => some twoServers) (Handshake.start fun _ => Proc.start)
        twoStarts = some s ∧
      runSteps (handshakeStep fun _ => some twoServers) s bs = some t ∧
      ∀ p, t.pc p = .idle ∨ t.pc p = .left := by
  have hmap : Along (handshakeStep fun _ => some twoServers) SizedWhenMapped
      (Handshake.start fun _ => Proc.start) twoStarts := by decide +kernel
  have hrun : (runSteps (handshakeStep fun _ => some twoServers)
      (Handshake.start fun _ => Proc.start) twoStarts).isSome = true := by decide +kernel
  obtain ⟨s, hs⟩ := Option.isSome_iff_exists.mp hrun
  obtain ⟨bs, t, -, ht, hdone, -⟩ := startups_finish hmap hs
  exact ⟨s, bs, t, hs, ht, hdone⟩

/-! ### A creator that has stopped -/

/-- What everybody needs from the creator `c` and has not got yet. -/
def Withheld (s : Handshake) (c : ℕ) : Prop :=
  s.creator .dT = some c ∧ s.sized .dT = false ∨
    s.creator .param = some c ∧ s.block.paramMemReady = 0

/-- Nobody else supplies it. -/
theorem Withheld.step (hinv : HandshakeInv config? proc s) {c : ℕ} (hs : Withheld s c)
    (he : e.1 ≠ c) (h : handshakeStep config? s e = some s') : Withheld s' c := by
  obtain ⟨-, hcreator, -⟩ := handshakeStep_frame h
  obtain ⟨-, hsized, -, hready⟩ := handshakeStep_objects h
  rcases hs with ⟨hc, hzero⟩ | ⟨hc, hzero⟩
  · refine .inl ⟨hcreator _ c hc, Bool.eq_false_of_not_eq_true fun hdone => ?_⟩
    rcases hsized _ hdone with hold | htrunc
    · rw [hzero] at hold
      cases hold
    · exact he (Option.some.inj ((hinv.trunc _ _ htrunc).symm.trans hc))
  · refine .inr ⟨hcreator _ c hc, (hready hzero).resolve_right fun hpc => ?_⟩
    have hinit := (hinv.toInit _ (hinv.role _ (.inr hpc))).1
    exact he (Option.some.inj (hinit.symm.trans hc))

/-- Without it nobody has left. -/
theorem Withheld.not_left (hinv : HandshakeInv config? proc s) (haw : Awaited s) {c : ℕ}
    (hs : Withheld s c) (p : ℕ) : s.pc p ≠ .left := by
  intro hleft
  rcases hs with ⟨-, hzero⟩ | ⟨-, hzero⟩
  · have hdone := haw.past p (by rw [hleft]; rfl)
    rw [hzero] at hdone
    cases hdone
  · obtain ⟨c', t, -, hblock, -⟩ := hinv.agreed.holds p hleft
    rw [hblock] at hzero
    exact absurd hzero Nat.one_ne_zero

/-- **A creator that has stopped blocks everybody.** In every run, once a process that has created
the sleep data or the parameters takes no more steps before it has sized the one or published the
other, nobody ever gets through its start-up, whatever the other processes do. -/
theorem stopped_creator_blocks {es bs : List (ℕ × ℕ)} {t : Handshake} {c : ℕ}
    (hrun : runSteps (handshakeStep config?) (Handshake.start proc) es = some s)
    (hstop : Withheld s c) (hbs : ∀ b ∈ bs, b.1 ≠ c)
    (hrun' : runSteps (handshakeStep config?) s bs = some t) : ∀ p, t.pc p ≠ .left := by
  have hnow : HandshakeInv config? proc s ∧ Awaited s :=
    invariant_of_runSteps (I := fun s => HandshakeInv config? proc s ∧ Awaited s)
      (P := fun _ _ => True) ⟨handshakeInv_start, awaited_start⟩
      (fun _ _ _ hi _ h => ⟨hi.1.step h, hi.2.step hi.1 h⟩)
      (along_of_forall (fun _ _ => trivial) _ _) hrun
  obtain ⟨hinv, haw, hend⟩ :=
    invariant_of_runSteps (I := fun s => HandshakeInv config? proc s ∧ Awaited s ∧ Withheld s c)
      (P := fun _ b => b.1 ≠ c) ⟨hnow.1, hnow.2, hstop⟩
      (fun _ _ _ hi hb h => ⟨hi.1.step h, hi.2.1.step hi.1 h, hi.2.2.step hi.1 hb h⟩)
      (along_of_mem (fun b hb _ => hbs b hb) s) hrun'
  exact hend.not_left hinv haw

/-- Process 1 waits for the parameters that process 0 has not published. -/
theorem stopped_creator_blocks_twoStarts : ∃ s t,
    runSteps (handshakeStep fun _ => some twoServers) (Handshake.start fun _ => Proc.start)
        twoStarts = some s ∧
      runSteps (handshakeStep fun _ => some twoServers) s (List.replicate 20 (1, 1)) = some t ∧
      ∀ p, t.pc p ≠ .left := by
  have hrun : (runSteps (handshakeStep fun _ => some twoServers)
      (Handshake.start fun _ => Proc.start) twoStarts).map (fun s =>
        (s.creator .param, s.block.paramMemReady)) = some (some 0, 0) := by decide +kernel
  have hrun' : ((runSteps (handshakeStep fun _ => some twoServers)
      (Handshake.start fun _ => Proc.start) (twoStarts ++ List.replicate 20 (1, 1))).map fun s =>
        s.pc 1) = some .waiting := by decide +kernel
  obtain ⟨s, hs, hwithheld⟩ := Option.map_eq_some_iff.mp hrun
  obtain ⟨t, ht, -⟩ := Option.map_eq_some_iff.mp hrun'
  rw [runSteps_append, hs, Option.bind_some] at ht
  exact ⟨s, t, hs, ht, stopped_creator_blocks hs (.inr (Prod.mk.inj hwithheld))
    (fun b hb => by rw [List.eq_of_mem_replicate hb]; norm_num) ht⟩

end Ooops
