import Mathlib.Data.Finset.Card
import Ooops.RateLimit
import Ooops.Basis.Run

/-!
# The Ring of Time Stamps

The number of a call is reserved under the mutex, but its slot in the ring is written and
read outside. This module takes a call apart into the steps that other processes can come
between: reserve a number, write the stamp, compare it with the stamp of the call three
before, sleep, and write the stamp again.

Nothing orders the steps of two calls. A call can be compared before the call three before
it has written its stamp, and finds whatever the slot held (`compare_not_fresh`), or after
that call has woken up and stamped again, and is then asked for more than `3 / freq` seconds.

* `Fresh` is what a comparison should find, `Orderly` what the schedule has to keep to.
* `RingMoves` lists the steps; `ringStep_moves` says that these are all.
* `RingInv` is the invariant, `RingInv.step` says that orderly steps keep it.
* `fresh_of_orderly`: in an orderly run every comparison is fresh.
* `Reaches.account`: the steps of one call, taken in one go, are its accounting.
-/

open Basis

namespace Ooops

/-- A call in progress: the number of calls that were reserved before it, and the value it
has read into `nCall_New`. -/
structure RingCall where
  n : ℕ
  nCallNew : ℤ
  deriving DecidableEq, Repr

/-- Where a process is in a tracked call. -/
inductive RingPc
  | idle
  /-- The number is reserved and the mutex is free again. -/
  | reserved (c : RingCall)
  /-- The stamp is written. -/
  | stamped (c : RingCall)
  /-- At the lock before the `nanosleep` of so many nanoseconds. -/
  | delaying (c : RingCall) (tNsSleep : ℤ)
  /-- In the `nanosleep`, with the mutex. -/
  | sleeping (c : RingCall) (wakeTime : ℚ)
  /-- The mutex is free again, and the stamp not yet renewed. -/
  | slept (c : RingCall)
  deriving DecidableEq

/-- The call that a process is in. -/
def RingPc.call : RingPc → Option RingCall
  | .idle => none
  | .reserved c | .stamped c | .delaying c _ | .sleeping c _ | .slept c => some c

/-- The steps of a process. `compare` is done with the maximum frequency of the process, and
`slow` says that the real call took longer than its threshold. -/
inductive RingAct
  | reserve
  | stamp (tid : ℤ)
  | compare (freq : ℚ) (slow : Bool)
  | lock
  | wake
  | restamp

/-- A step of a process, or the passing of time. -/
inductive RingEvent
  | tick (d : ℚ≥0)
  | act (p : ℕ) (a : RingAct)

/-- The ledger of one kind of call on one server, the clock, the mutex and the places of
all processes. `total` counts the calls reserved and `writer` notes which call has written
a slot last. -/
structure RingState where
  ledger : Ledger
  now : ℚ
  locked : Bool
  pc : ℕ → RingPc
  total : ℕ
  writer : Fin 512 → Option ℕ

/-- A zero-filled segment, and nobody in a call. -/
def ringStart (now : ℚ) : RingState :=
  ⟨Ledger.zero, now, false, fun _ => .idle, 0, fun _ => none⟩

namespace RingState

/-- Process `p` goes on to `c`. -/
def move (s : RingState) (p : ℕ) (c : RingPc) : RingState :=
  { s with pc := Function.update s.pc p c }

/-- The slot of a call gets the current time. -/
def write (s : RingState) (c : RingCall) : RingState :=
  { s with
    ledger := s.ledger.stamp (fastMod c.nCallNew) (gettimeofday s.now)
    writer := Function.update s.writer (fastMod c.nCallNew) (some c.n) }

section Write

variable (s : RingState) (c : RingCall) {k : Fin 512}

theorem write_tList_self :
    (s.write c).ledger.tList (fastMod c.nCallNew) = gettimeofday s.now :=
  Function.update_self ..

theorem write_tList_of_ne (h : k ≠ fastMod c.nCallNew) :
    (s.write c).ledger.tList k = s.ledger.tList k :=
  Function.update_of_ne h ..

theorem write_writer_self : (s.write c).writer (fastMod c.nCallNew) = some c.n :=
  Function.update_self ..

theorem write_writer_of_ne (h : k ≠ fastMod c.nCallNew) : (s.write c).writer k = s.writer k :=
  Function.update_of_ne h ..

end Write

end RingState

/-- One step. -/
def ringStep (s : RingState) : RingEvent → Option RingState
  | .tick d => some { s with now := s.now + d }
  | .act p a =>
      match s.pc p, a with
      | .idle, .reserve =>
          if s.locked then none
          else some ({ s with
              ledger := { s.ledger with count := wrapInt32 (s.ledger.count + 1) }
              total := s.total + 1 }.move p (.reserved ⟨s.total, s.ledger.count⟩))
      | .reserved c, .stamp tid =>
          let s := s.write c
          some ({ s with
            ledger := { s.ledger with
              dTToSleep := 0
              tidList := Function.update s.ledger.tidList (fastMod c.nCallNew) tid } }.move p
                (.stamped c))
      | .stamped c, .compare freq slow =>
          if c.nCallNew > 3 then
            let d := sleepTime freq s.ledger c.nCallNew
            let s := { s with ledger := { s.ledger with dTToSleep := d } }
            if slow ∨ d > 0.0000001 then
              some (s.move p (.delaying c (truncLong (1000000000 * d))))
            else some (s.move p .idle)
          else some (s.move p .idle)
      | .delaying c t, .lock =>
          if s.locked then none
          else some ({ s with locked := true }.move p
            (.sleeping c (nanosleep s.now (Timespec.ofNs t) 0)))
      | .sleeping c t, .wake =>
          if t ≤ s.now then
            some ({ s with
              locked := false
              ledger := { s.ledger with
                delayedCount := wrapInt32 (s.ledger.delayedCount + 1) } }.move p (.slept c))
          else none
      | .slept c, .restamp => some ((s.write c).move p .idle)
      | _, _ => none

/-- The stamp a call is compared with is that of the call three before it, which is not the
later one, so that at most `3 / freq` seconds are to be slept. -/
def Fresh (s : RingState) : RingEvent → Prop
  | .act p (.compare freq _) =>
      ∀ c, s.pc p = .stamped c → c.nCallNew > 3 →
        s.writer (fastMod (c.nCallNew - 3)) = some (c.n - 3) ∧
        (s.ledger.tList (fastMod (c.nCallNew - 3))).toSec ≤
          (s.ledger.tList (fastMod c.nCallNew)).toSec ∧
        sleepTime freq s.ledger c.nCallNew ≤ 3 / freq
  | _ => True

/-- No call goes on when 509 later ones were reserved; a call writes its stamp after the
call three before it has; and a call does not renew its stamp between the stamp and the
comparison of the call three after it. -/
def Orderly (s : RingState) : RingEvent → Prop
  | .act p (.stamp _) =>
      ∀ c, s.pc p = .reserved c → s.total ≤ c.n + 509 ∧
        (c.nCallNew > 3 → ∀ q c', s.pc q = .reserved c' → c'.n + 3 ≠ c.n)
  | .act p (.compare _ _) => ∀ c, s.pc p = .stamped c → s.total ≤ c.n + 509
  | .act p .restamp =>
      ∀ c, s.pc p = .slept c → s.total ≤ c.n + 509 ∧
        ∀ q c', s.pc q = .stamped c' → c.n + 3 ≠ c'.n
  | _ => True

/-! ### The steps -/

/-- What one step does: it reserves a number, or it writes a stamp, or it does neither, lets
no call begin and leaves none behind that is about to stamp or to compare. -/
inductive RingMoves (s : RingState) (e : RingEvent) (s' : RingState) : Prop
  | reserve (p : ℕ) (he : e = .act p .reserve) (hpc : s.pc p = .idle)
      (hs' : s' = { s with
          ledger := { s.ledger with count := wrapInt32 (s.ledger.count + 1) }
          total := s.total + 1 }.move p (.reserved ⟨s.total, s.ledger.count⟩))
  | write (p : ℕ) (c : RingCall) (c' : RingPc)
      (hpc : s.pc p = .reserved c ∧ c' = .stamped c ∧ (∃ tid, e = .act p (.stamp tid)) ∨
        s.pc p = .slept c ∧ c' = .idle ∧ e = .act p .restamp)
      (hcount : s'.ledger.count = s.ledger.count)
      (htList : s'.ledger.tList = (s.write c).ledger.tList)
      (hwriter : s'.writer = (s.write c).writer)
      (hnow : s'.now = s.now) (htotal : s'.total = s.total)
      (hmove : s'.pc = Function.update s.pc p c')
  | rest (hcount : s'.ledger.count = s.ledger.count) (htList : s'.ledger.tList = s.ledger.tList)
      (hwriter : s'.writer = s.writer) (hnow : s.now ≤ s'.now) (htotal : s'.total = s.total)
      (hcall : ∀ q c, (s'.pc q).call = some c → (s.pc q).call = some c)
      (hreserved : ∀ q c, s'.pc q = .reserved c ↔ s.pc q = .reserved c)
      (hstamped : ∀ q c, s'.pc q = .stamped c → s.pc q = .stamped c)

variable {s s' : RingState} {e : RingEvent}

/-- A process that goes on to a place of the same call or of none, and not to a stamp or a
comparison, adds nothing to the calls in progress. -/
theorem ringMoves_rest {p : ℕ} {c' : RingPc} (hcount : s'.ledger.count = s.ledger.count)
    (htList : s'.ledger.tList = s.ledger.tList) (hwriter : s'.writer = s.writer)
    (hnow : s.now ≤ s'.now) (htotal : s'.total = s.total)
    (hmove : s'.pc = Function.update s.pc p c')
    (hcall : ∀ c, c'.call = some c → (s.pc p).call = some c)
    (hold : ∀ c, s.pc p ≠ .reserved c) (hreserved : ∀ c, c' ≠ .reserved c)
    (hstamped : ∀ c, c' ≠ .stamped c) : RingMoves s e s' := by
  have hpc (q : ℕ) : s'.pc q = if q = p then c' else s.pc q := by
    rw [hmove, Function.update_apply]
  refine .rest hcount htList hwriter hnow htotal (fun q c hq => ?_) (fun q c => ?_)
    fun q c hq => ?_
  · rw [hpc] at hq
    split_ifs at hq with hqp
    · exact hqp ▸ hcall c hq
    · exact hq
  · rw [hpc]
    split_ifs with hqp
    · exact iff_of_false (hreserved c) (hqp ▸ hold c)
    · exact Iff.rfl
  · rw [hpc] at hq
    split_ifs at hq
    · exact absurd hq (hstamped c)
    · exact hq

/-- **Inversion of a step.** -/
theorem ringStep_moves (h : ringStep s e = some s') : RingMoves s e s' := by
  cases e with
  | tick d =>
      obtain rfl := Option.some.inj h
      have hd : (0 : ℚ) ≤ d := d.2
      refine .rest rfl rfl rfl ?_ rfl (fun _ _ hq => hq) (fun _ _ => Iff.rfl) fun _ _ hq => hq
      simp only
      linarith
  | act p a =>
      simp only [ringStep] at h
      split at h
      case h_1 hpc =>
        split at h
        · exact absurd h (by simp)
        · exact .reserve p rfl hpc (Option.some.inj h).symm
      case h_2 c tid hpc =>
        obtain rfl := Option.some.inj h
        exact .write p c _ (.inl ⟨hpc, rfl, tid, rfl⟩) rfl rfl rfl rfl rfl rfl
      case h_3 c freq slow hpc =>
        have hidle : ∀ c', RingPc.idle.call = some c' → (s.pc p).call = some c' := by
          simp [RingPc.call]
        have hdelay (t : ℤ) :
            ∀ c', (RingPc.delaying c t).call = some c' → (s.pc p).call = some c' := by
          simp [RingPc.call, hpc]
        split at h
        · split at h
          · obtain rfl := Option.some.inj h
            exact ringMoves_rest rfl rfl rfl le_rfl rfl rfl (hdelay _) (by simp [hpc]) nofun nofun
          · obtain rfl := Option.some.inj h
            exact ringMoves_rest rfl rfl rfl le_rfl rfl rfl hidle (by simp [hpc]) nofun nofun
        · obtain rfl := Option.some.inj h
          exact ringMoves_rest rfl rfl rfl le_rfl rfl rfl hidle (by simp [hpc]) nofun nofun
      case h_4 c t hpc =>
        split at h
        · exact absurd h (by simp)
        · obtain rfl := Option.some.inj h
          exact ringMoves_rest rfl rfl rfl le_rfl rfl rfl (by simp [RingPc.call, hpc])
            (by simp [hpc]) nofun nofun
      case h_5 c t hpc =>
        split at h
        · obtain rfl := Option.some.inj h
          exact ringMoves_rest rfl rfl rfl le_rfl rfl rfl (by simp [RingPc.call, hpc])
            (by simp [hpc]) nofun nofun
        · exact absurd h (by simp)
      case h_6 c hpc =>
        obtain rfl := Option.some.inj h
        exact .write p c _ (.inr ⟨hpc, rfl, rfl⟩) rfl rfl rfl rfl rfl rfl
      case h_7 => exact absurd h (by simp)

/-! ### The invariant -/

/-- Two calls less than 512 apart have different slots. -/
theorem slot_ne {a b : ℕ} (hne : a ≠ b) (hab : a < b + 512) (hba : b < a + 512) :
    fastMod (wrapInt32 a) ≠ fastMod (wrapInt32 b) := by
  rcases Nat.lt_or_gt_of_ne hne with hlt | hgt
  · exact fastMod_ne_of_lt hlt hba
  · exact (fastMod_ne_of_lt hgt hab).symm

/-- The slot a call is compared with is that of the call three before. -/
theorem prev_slot {n : ℕ} (h : wrapInt32 n > 3) :
    3 < n ∧ fastMod (wrapInt32 n - 3) = fastMod (wrapInt32 (n - 3 : ℕ)) := by
  have hn : 3 < n := by
    by_contra hle
    rw [wrapInt32_eq_self (by omega) (by omega)] at h
    omega
  refine ⟨hn, Fin.ext ?_⟩
  have hval := fastMod_val (wrapInt32 n - 3)
  have hval' := fastMod_val (wrapInt32 (n - 3 : ℕ))
  have hn' := wrapInt32_emod_512 n
  rw [wrapInt32_emod_512] at hval'
  omega

/-- The invariant: the counter has counted the calls, which all have numbers of their own;
the slot of a call of the last 512 that has stamped is its own; and a call that is about to
be compared has stamped after the call three before it. -/
structure RingInv (s : RingState) : Prop where
  count : s.ledger.count = wrapInt32 s.total
  call : ∀ p c, (s.pc p).call = some c → c.n < s.total ∧ c.nCallNew = wrapInt32 c.n
  unique : ∀ p q c c', (s.pc p).call = some c → (s.pc q).call = some c' → c.n = c'.n → p = q
  past : ∀ k m, s.writer k = some m →
    (s.ledger.tList k).toSec ≤ (gettimeofday s.now).toSec
  written : ∀ m < s.total, s.total ≤ m + 512 → (∀ p c, s.pc p = .reserved c → c.n ≠ m) →
    s.writer (fastMod (wrapInt32 m)) = some m
  before : ∀ p c, s.pc p = .stamped c → c.nCallNew > 3 →
    ∀ q c', s.pc q = .reserved c' → c'.n + 3 ≠ c.n
  ordered : ∀ p c, s.pc p = .stamped c → c.nCallNew > 3 → s.total ≤ c.n + 509 →
    (s.ledger.tList (fastMod (c.nCallNew - 3))).toSec ≤
      (s.ledger.tList (fastMod c.nCallNew)).toSec

/-- Nobody is in a call. -/
theorem ringInv_start (now : ℚ) : RingInv (ringStart now) where
  count := by simp [ringStart, Ledger.zero, wrapInt32]
  call := nofun
  unique := nofun
  past := nofun
  written := fun m h => absurd h (Nat.not_lt_zero m)
  before := nofun
  ordered := nofun

namespace RingInv

/-- A step that neither reserves nor stamps. -/
theorem rest (h : RingInv s) (hcount : s'.ledger.count = s.ledger.count)
    (htList : s'.ledger.tList = s.ledger.tList) (hwriter : s'.writer = s.writer)
    (hnow : s.now ≤ s'.now) (htotal : s'.total = s.total)
    (hcall : ∀ q c, (s'.pc q).call = some c → (s.pc q).call = some c)
    (hreserved : ∀ q c, s'.pc q = .reserved c ↔ s.pc q = .reserved c)
    (hstamped : ∀ q c, s'.pc q = .stamped c → s.pc q = .stamped c) : RingInv s' where
  count := by rw [hcount, htotal, h.count]
  call := fun p c hc => htotal ▸ h.call p c (hcall p c hc)
  unique := fun p q c c' hc hc' => h.unique p q c c' (hcall p c hc) (hcall q c' hc')
  past := fun k m hk => by
    rw [htList]
    exact (h.past k m (hwriter ▸ hk)).trans (stamp_mono hnow)
  written := fun m hm hlast hnot => by
    rw [hwriter]
    rw [htotal] at hm hlast
    exact h.written m hm hlast fun p c hc => hnot p c ((hreserved p c).mpr hc)
  before := fun p c hc hgate q c' hc' =>
    h.before p c (hstamped p c hc) hgate q c' ((hreserved q c').mp hc')
  ordered := fun p c hc hgate hlast => by
    rw [htList]
    exact h.ordered p c (hstamped p c hc) hgate (htotal ▸ hlast)

/-- The next number is reserved. -/
theorem reserve (h : RingInv s) {p : ℕ} (hpc : s.pc p = .idle) :
    RingInv ({ s with
      ledger := { s.ledger with count := wrapInt32 (s.ledger.count + 1) }
      total := s.total + 1 }.move p (.reserved ⟨s.total, s.ledger.count⟩)) := by
  set s' := { s with
      ledger := { s.ledger with count := wrapInt32 (s.ledger.count + 1) }
      total := s.total + 1 }.move p (.reserved ⟨s.total, s.ledger.count⟩) with hs'
  have hself : s'.pc p = .reserved ⟨s.total, s.ledger.count⟩ := Function.update_self ..
  have hothers {q : ℕ} (hq : q ≠ p) : s'.pc q = s.pc q := Function.update_of_ne hq ..
  have hcall {q : ℕ} {c : RingCall} (hc : (s'.pc q).call = some c) :
      q = p ∧ c = ⟨s.total, s.ledger.count⟩ ∨ q ≠ p ∧ (s.pc q).call = some c := by
    by_cases hq : q = p
    · rw [hq, hself] at hc
      exact .inl ⟨hq, (Option.some.inj hc).symm⟩
    · rw [hothers hq] at hc
      exact .inr ⟨hq, hc⟩
  have hstamped {q : ℕ} {c : RingCall} (hc : s'.pc q = .stamped c) : s.pc q = .stamped c := by
    by_cases hq : q = p
    · rw [hq, hself] at hc
      exact absurd hc nofun
    · rwa [hothers hq] at hc
  have hlt {q : ℕ} {c : RingCall} (hc : s.pc q = .stamped c) : c.n < s.total :=
    (h.call q c (by rw [hc]; rfl)).1
  refine ⟨?_, fun q c hc => ?_, fun q r c d hc hd hcd => ?_, h.past, fun m hm hlast hnot => ?_,
    fun q c hc hgate r d hd => ?_, fun q c hc hgate hlast => ?_⟩
  · change wrapInt32 (s.ledger.count + 1) = wrapInt32 (s.total + 1 : ℕ)
    rw [h.count, wrapInt32_add_one]
    norm_cast
  · obtain ⟨-, rfl⟩ | ⟨-, hc⟩ := hcall hc
    · exact ⟨Nat.lt_succ_self _, h.count⟩
    · exact ⟨Nat.lt_succ_of_lt (h.call q c hc).1, (h.call q c hc).2⟩
  · obtain ⟨hq, rfl⟩ | ⟨-, hqc⟩ := hcall hc <;> obtain ⟨hr, rfl⟩ | ⟨-, hrd⟩ := hcall hd
    · rw [hq, hr]
    · exact absurd hcd.symm (h.call r d hrd).1.ne
    · exact absurd hcd (h.call q c hqc).1.ne
    · exact h.unique q r c d hqc hrd hcd
  · change m < s.total + 1 at hm
    change s.total + 1 ≤ m + 512 at hlast
    have hne : s.total ≠ m := hnot p _ hself
    refine h.written m (by omega) (by omega) fun q c hc => ?_
    have hq : q ≠ p := by
      rintro rfl
      rw [hpc] at hc
      exact absurd hc nofun
    exact hnot q c (by rw [hothers hq, hc])
  · have hcs := hstamped hc
    obtain ⟨-, rfl⟩ | ⟨hr, -⟩ := hcall (q := r) (c := d) (by rw [hd]; rfl)
    · have := hlt hcs
      change s.total + 3 ≠ c.n
      omega
    · rw [hothers hr] at hd
      exact h.before q c hcs hgate r d hd
  · change s.total + 1 ≤ c.n + 509 at hlast
    exact h.ordered q c (hstamped hc) hgate (by omega)

/-- A call that stamps does so after the call three before it, and not later than now. -/
theorem ordered_self (h : RingInv s) {p : ℕ} {c : RingCall} (hc : (s.pc p).call = some c)
    (hgate : c.nCallNew > 3) (hlast : s.total ≤ c.n + 509)
    (hprev : ∀ q e, s.pc q = .reserved e → e.n + 3 ≠ c.n) :
    ((s.write c).ledger.tList (fastMod (c.nCallNew - 3))).toSec ≤
      ((s.write c).ledger.tList (fastMod c.nCallNew)).toSec := by
  obtain ⟨hlt, hnum⟩ := h.call p c hc
  rw [hnum] at hgate
  obtain ⟨h3, hslot⟩ := prev_slot hgate
  have hw := h.written (c.n - 3) (by omega) (by omega) fun r e he hen =>
    hprev r e he (by omega)
  rw [hnum, hslot, ← hnum, s.write_tList_self, s.write_tList_of_ne]
  · exact h.past _ _ hw
  · rw [hnum]
    exact slot_ne (by omega) (by omega) (by omega)

/-- The two slots that another call compares are not written. -/
theorem ordered_other (h : RingInv s) {p q : ℕ} {c d : RingCall} (hc : (s.pc p).call = some c)
    (hlast : s.total ≤ c.n + 509) (hd : s.pc q = .stamped d) (hq : q ≠ p)
    (hgate : d.nCallNew > 3) (hd' : s.total ≤ d.n + 509) (hnext : c.n + 3 ≠ d.n) :
    ((s.write c).ledger.tList (fastMod (d.nCallNew - 3))).toSec ≤
      ((s.write c).ledger.tList (fastMod d.nCallNew)).toSec := by
  obtain ⟨hlt, hnum⟩ := h.call p c hc
  have hdcall := h.call q d (by rw [hd]; rfl)
  have hordered := h.ordered q d hd hgate hd'
  rw [hdcall.2] at hgate hordered ⊢
  obtain ⟨h3, hslot⟩ := prev_slot hgate
  rw [hslot] at hordered ⊢
  have hne : d.n ≠ c.n := fun hn => hq (h.unique q p d c (by rw [hd]; rfl) hc hn)
  rw [s.write_tList_of_ne, s.write_tList_of_ne]
  · exact hordered
  · rw [hnum]
    exact slot_ne hne (by omega) (by omega)
  · rw [hnum]
    exact slot_ne (by omega) (by omega) (by omega)

/-- A call writes its slot while at most 509 later ones are reserved. When it goes on to the
comparison, then the call three before it has stamped; otherwise the call three after it is
not at its comparison. -/
theorem write (h : RingInv s) {p : ℕ} {c : RingCall} {c' : RingPc}
    (hc : (s.pc p).call = some c) (hcount : s'.ledger.count = s.ledger.count)
    (htList : s'.ledger.tList = (s.write c).ledger.tList)
    (hwriter : s'.writer = (s.write c).writer) (hnow : s'.now = s.now)
    (htotal : s'.total = s.total) (hmove : s'.pc = Function.update s.pc p c')
    (hlast : s.total ≤ c.n + 509) (hreserved : ∀ d, c' ≠ .reserved d)
    (hcall : ∀ d, c'.call = some d → d = c)
    (hprev : ∀ d, c' = .stamped d → c.nCallNew > 3 →
      ∀ q e, s.pc q = .reserved e → e.n + 3 ≠ c.n)
    (hnext : ∀ q d, s.pc q = .stamped d → d.nCallNew > 3 → c.n + 3 ≠ d.n) : RingInv s' := by
  obtain ⟨hlt, hnum⟩ := h.call p c hc
  have hpc (q : ℕ) : s'.pc q = if q = p then c' else s.pc q := by
    rw [hmove, Function.update_apply]
  have hcalls {q : ℕ} {d : RingCall} (hd : (s'.pc q).call = some d) :
      (s.pc q).call = some d := by
    rw [hpc] at hd
    split_ifs at hd with hq
    · rw [hq, hc, hcall d hd]
    · exact hd
  have hold {q : ℕ} {d : RingCall} (hd : s'.pc q = .reserved d) : s.pc q = .reserved d := by
    rw [hpc] at hd
    split_ifs at hd
    · exact absurd hd (hreserved d)
    · exact hd
  refine ⟨by rw [hcount, htotal, h.count], fun q d hd => htotal ▸ h.call q d (hcalls hd),
    fun q r d e hd he => h.unique q r d e (hcalls hd) (hcalls he), fun k m hk => ?_,
    fun m hm hm' hnot => ?_, fun q d hd hgate r e he => ?_, fun q d hd hgate hd' => ?_⟩
  · rw [hnow]
    by_cases hk' : k = fastMod c.nCallNew
    · rw [htList, hk', s.write_tList_self c]
    · rw [htList, s.write_tList_of_ne c hk']
      rw [hwriter, s.write_writer_of_ne c hk'] at hk
      exact h.past k m hk
  · rw [htotal] at hm hm'
    rw [hwriter]
    by_cases hmn : m = c.n
    · rw [hmn, ← hnum, s.write_writer_self c]
    · have hk : fastMod (wrapInt32 m) ≠ fastMod c.nCallNew := by
        rw [hnum]
        exact slot_ne hmn (by omega) (by omega)
      refine (s.write_writer_of_ne c hk).trans (h.written m hm hm' fun q d hd => ?_)
      by_cases hq : q = p
      · rw [hq] at hd
        rw [hd] at hc
        rw [Option.some.inj hc]
        exact Ne.symm hmn
      · exact hnot q d (by rw [hpc, if_neg hq, hd])
  · rw [hpc] at hd
    split_ifs at hd with hq
    · obtain rfl := hcall d (by rw [hd]; rfl)
      exact hprev d hd hgate r e (hold he)
    · exact h.before q d hd hgate r e (hold he)
  · rw [htotal] at hd'
    rw [htList]
    rw [hpc] at hd
    split_ifs at hd with hq
    · obtain rfl := hcall d (by rw [hd]; rfl)
      exact h.ordered_self hc hgate hlast (hprev d hd hgate)
    · exact h.ordered_other hc hlast hd hq hgate hd' (hnext q d hd hgate)

/-- **One step.** -/
theorem step (h : RingInv s) (ho : Orderly s e) (hs : ringStep s e = some s') : RingInv s' := by
  cases ringStep_moves hs with
  | reserve p _ hpc hs' =>
      rw [hs']
      exact h.reserve hpc
  | write p c c' hpc hcount htList hwriter hnow htotal hmove =>
      obtain ⟨hpc, rfl, tid, rfl⟩ | ⟨hpc, rfl, rfl⟩ := hpc
      · obtain ⟨hlast, hprev⟩ := ho c hpc
        refine h.write (by rw [hpc]; rfl) hcount htList hwriter hnow htotal hmove hlast nofun
          (fun d hd => (Option.some.inj hd).symm) (fun _ _ => hprev) fun q d hd hgate => ?_
        exact h.before q d hd hgate p c hpc
      · obtain ⟨hlast, hnext⟩ := ho c hpc
        exact h.write (by rw [hpc]; rfl) hcount htList hwriter hnow htotal hmove hlast nofun
          nofun nofun fun q d hd _ => hnext q d hd
  | rest hcount htList hwriter hnow htotal hcall hreserved hstamped =>
      exact h.rest hcount htList hwriter hnow htotal hcall hreserved hstamped

/-- In a state of the invariant an orderly comparison is fresh. -/
theorem fresh (h : RingInv s) (ho : Orderly s e) : Fresh s e := by
  rcases e with _ | ⟨p, _ | _ | ⟨freq, slow⟩ | _ | _ | _⟩
  case act.compare =>
    intro c hc hgate
    obtain ⟨hlt, hnum⟩ := h.call p c (by rw [hc]; rfl)
    have hlast := ho c hc
    have hord := h.ordered p c hc hgate hlast
    refine ⟨?_, hord, ?_⟩
    · obtain ⟨h3, hslot⟩ := prev_slot (hnum ▸ hgate)
      rw [hnum, hslot]
      refine h.written (c.n - 3) (by omega) (by omega) fun q d hd hdn => ?_
      exact h.before p c hc hgate q d hd (by omega)
    · rw [sleepTime, Timeval.since_eq]
      linarith
  all_goals trivial

end RingInv

/-- **Freshness.** In an orderly run every call that is compared is compared with the stamp
of the call three before it, and asked to sleep at most `3 / freq` seconds. -/
theorem fresh_of_orderly (now : ℚ) (es : List RingEvent)
    (h : Along ringStep Orderly (ringStart now) es) : Along ringStep Fresh (ringStart now) es :=
  h.imp_of_invariant (ringInv_start now) (fun _ _ _ hi ho hs => hi.step ho hs)
    fun _ _ hi ho => hi.fresh ho

/-! ### Few processes -/

/-- The events of the processes in `S`. -/
def RingEvent.In (S : Finset ℕ) : RingEvent → Prop
  | .tick _ => True
  | .act p _ => p ∈ S

/-- A process is moved by its own steps only. -/
theorem ringStep_pc {p : ℕ} {a : RingAct} (h : ringStep s (.act p a) = some s') :
    ∃ c', s'.pc = Function.update s.pc p c' := by
  simp only [ringStep] at h
  split at h
  case h_1 | h_4 =>
    split at h
    · exact absurd h nofun
    · obtain rfl := Option.some.inj h
      exact ⟨_, rfl⟩
  case h_2 | h_6 =>
    obtain rfl := Option.some.inj h
    exact ⟨_, rfl⟩
  case h_3 =>
    split at h
    · split at h <;> obtain rfl := Option.some.inj h <;> exact ⟨_, rfl⟩
    · obtain rfl := Option.some.inj h
      exact ⟨_, rfl⟩
  case h_5 =>
    split at h
    · obtain rfl := Option.some.inj h
      exact ⟨_, rfl⟩
    · exact absurd h nofun
  case h_7 => exact absurd h nofun

/-- The processes outside of `S` stay idle. -/
theorem idle_step {S : Finset ℕ} (h : ∀ p ∉ S, s.pc p = .idle) (he : e.In S)
    (hs : ringStep s e = some s') : ∀ p ∉ S, s'.pc p = .idle := by
  intro q hq
  cases e with
  | tick d =>
      obtain rfl := Option.some.inj hs
      exact h q hq
  | act p a =>
      obtain ⟨c', hc'⟩ := ringStep_pc hs
      have hqp : q ≠ p := by
        rintro rfl
        exact hq he
      rw [hc', Function.update_of_ne hqp, h q hq]

/-- The processes in `S` take a step, and reserve a number only if each call in progress has been
followed by at most one other. -/
def Abreast (S : Finset ℕ) (s : RingState) : RingEvent → Prop
  | .tick _ => True
  | .act p .reserve => p ∈ S ∧ ∀ q ∈ S, ∀ c ∈ (s.pc q).call, s.total ≤ c.n + 2
  | .act p _ => p ∈ S

instance (S : Finset ℕ) (s : RingState) : (e : RingEvent) → Decidable (Abreast S s e)
  | .tick _ => .isTrue trivial
  | .act p .reserve =>
      inferInstanceAs (Decidable (p ∈ S ∧ ∀ q ∈ S, ∀ c ∈ (s.pc q).call, s.total ≤ c.n + 2))
  | .act p (.stamp _) | .act p (.compare _ _) | .act p .lock | .act p .wake | .act p .restamp =>
      inferInstanceAs (Decidable (p ∈ S))

/-- Only processes in `S` are in a call, and each call was followed by at most two others. -/
structure Followed (S : Finset ℕ) (s : RingState) : Prop where
  idle : ∀ q ∉ S, s.pc q = .idle
  last : ∀ q c, (s.pc q).call = some c → s.total ≤ c.n + 3

section Abreast

variable {S : Finset ℕ}

theorem Abreast.mem (h : Abreast S s e) : e.In S := by
  rcases e with _ | ⟨p, _ | tid | _ | _ | _ | _⟩
  case act.reserve => exact h.1
  all_goals exact h

/-- The step of a call in progress is orderly. -/
theorem Followed.orderly (h : Followed S s) (hi : RingInv s) (e : RingEvent) : Orderly s e := by
  -- the call three before the last one reserved is over
  have hthird {p q : ℕ} {c d : RingCall} (hp : (s.pc p).call = some c)
      (hq : (s.pc q).call = some d) : c.n + 3 ≠ d.n := by
    have hlast := h.last p c hp
    have hlt := (hi.call q d hq).1
    omega
  have hroom {p : ℕ} {c : RingCall} (hp : (s.pc p).call = some c) : s.total ≤ c.n + 509 :=
    (h.last p c hp).trans (by omega)
  rcases e with _ | ⟨p, _ | tid | _ | _ | _ | _⟩
  case act.stamp =>
    intro c hc
    have hp : (s.pc p).call = some c := by rw [hc, RingPc.call]
    exact ⟨hroom hp, fun _ q d hd => hthird (by rw [hd, RingPc.call]) hp⟩
  case act.compare =>
    intro c hc
    exact hroom (by rw [hc, RingPc.call])
  case act.restamp =>
    intro c hc
    have hp : (s.pc p).call = some c := by rw [hc, RingPc.call]
    exact ⟨hroom hp, fun q d hd => hthird hp (by rw [hd, RingPc.call])⟩
  all_goals trivial

theorem Followed.step (h : Followed S s) (he : Abreast S s e) (hs : ringStep s e = some s') :
    Followed S s' := by
  refine ⟨idle_step h.idle he.mem hs, fun q c hc => ?_⟩
  cases ringStep_moves hs with
  | reserve p hp hpc hs' =>
      subst hs' hp
      by_cases hqp : q = p
      · simp only [RingState.move, hqp, Function.update_self, RingPc.call, Option.some.injEq] at hc
        subst hc
        simp only [RingState.move]
        omega
      · simp only [RingState.move, Function.update_of_ne hqp] at hc
        have hq : q ∈ S := by
          by_contra hq
          rw [h.idle q hq] at hc
          cases hc
        exact Nat.add_le_add_right (he.2 q hq c hc) 1
  | write p d d' hpc _ _ _ _ htotal hmove =>
      rw [htotal]
      by_cases hqp : q = p
      · rw [hmove, hqp, Function.update_self] at hc
        obtain ⟨hpc, rfl, -⟩ | ⟨-, rfl, -⟩ := hpc
        · exact h.last p c (by rw [hpc]; exact hc)
        · cases hc
      · rw [hmove, Function.update_of_ne hqp] at hc
        exact h.last q c hc
  | rest _ _ _ _ htotal hcall _ _ =>
      rw [htotal]
      exact h.last q c (hcall q c hc)

/-- Where no call is followed by three others before it is over, the run is orderly. -/
theorem orderly_of_abreast {now : ℚ} {es : List RingEvent}
    (h : Along ringStep (Abreast S) (ringStart now) es) :
    Along ringStep Orderly (ringStart now) es := by
  refine h.imp_of_invariant (I := fun s => RingInv s ∧ Followed S s)
    ⟨ringInv_start now, fun _ _ => rfl, nofun⟩ ?_ ?_
  · intro s e s' hi he hs
    exact ⟨hi.1.step (hi.2.orderly hi.1 e) hs, hi.2.step he hs⟩
  · exact fun s e hi _ => hi.2.orderly hi.1 e

end Abreast

/-- `n` calls of process `p`, none of which is delayed. -/
def quickCalls (p : ℕ) (freq : ℚ) (n : ℕ) : List RingEvent :=
  (List.replicate n
    [.act p .reserve, .act p (.stamp 7), .act p (.compare freq false)]).flatten

/-- Call 4 of process 1 and call 5 of process 0 go on side by side, behind four calls of process
0; call 5 is delayed by three seconds. -/
def sideBySide : List RingEvent :=
  quickCalls 0 1 4 ++
    [.act 1 .reserve, .act 0 .reserve, .act 0 (.stamp 7), .act 1 (.stamp 8),
      .act 0 (.compare 1 false), .act 0 .lock, .act 1 (.compare 1 false), .tick 3, .act 0 .wake,
      .act 0 .restamp]

theorem fresh_of_orderly_sideBySide :
    Along ringStep Fresh (ringStart 0) sideBySide ∧
      ((runSteps ringStep (ringStart 0) sideBySide).map fun s =>
        (s.writer 4, s.writer 5, s.ledger.dTToSleep, s.ledger.delayedCount)) =
          some (some 4, some 5, 3, 1) := by
  have habreast : Along ringStep (Abreast {0, 1}) (ringStart 0) sideBySide := by decide +kernel
  exact ⟨fresh_of_orderly 0 _ (orderly_of_abreast habreast), by decide +kernel⟩

/-- Fewer than 509 calls are in progress. -/
def FewInProgress (s : RingState) : Prop :=
  ∃ S : Finset ℕ, S.card < 509 ∧ ∀ p ∉ S, s.pc p = .idle

/-- Process 1 has reserved number 1 and goes no further; process 0 makes the calls around
it. -/
def overtaken : List RingEvent :=
  quickCalls 0 1 1 ++ [.act 1 .reserve] ++ quickCalls 0 1 2 ++
    [.act 0 .reserve, .act 0 (.stamp 7)]

/-- Call 4 is compared with the slot of call 1, which nobody has written. -/
theorem compare_not_fresh :
    ¬∀ now es, Along ringStep (fun s _ => FewInProgress s) (ringStart now) es →
      Along ringStep Fresh (ringStart now) es := by
  intro h
  have hin : ∀ e ∈ overtaken ++ [.act 0 (.compare 1 false)], e.In {0, 1} := by
    simp [overtaken, quickCalls, RingEvent.In]
  have hfew : Along ringStep (fun s _ => FewInProgress s) (ringStart 0)
      (overtaken ++ [.act 0 (.compare 1 false)]) := by
    refine (along_of_mem (fun e he _ => hin e he) _ :
      Along ringStep (fun _ e => e.In {0, 1}) _ _).imp_of_invariant
        (I := fun s => ∀ p ∉ ({0, 1} : Finset ℕ), s.pc p = .idle) (fun _ _ => rfl) ?_ ?_
    · exact fun s e s' hi he hs => idle_step hi he hs
    · exact fun s _ hi _ => ⟨{0, 1}, by decide, hi⟩
  have hrun : (runSteps ringStep (ringStart 0) overtaken).map (fun s => (s.pc 0, s.writer 1)) =
      some (.stamped ⟨4, 4⟩, none) := by decide +kernel
  obtain ⟨s, hs, hpc⟩ := Option.map_eq_some_iff.mp hrun
  obtain ⟨hpc, hwriter⟩ := Prod.mk.inj hpc
  have hfresh := (h 0 _ hfew).concat.2 s hs ⟨4, 4⟩ hpc (by decide)
  have hslot : fastMod (4 - 3) = 1 := by decide +kernel
  rw [hslot, hwriter] at hfresh
  exact absurd hfresh.1 nofun

/-! ### The steps of one call -/

/-- By steps of its own `p` takes `s` to the ledger and the clock of `v`, and is idle then,
with the mutex free. -/
def Reaches (op : Op) (i : FsIdx) (p : ℕ) (s : RingState) (v : View) : Prop :=
  ∃ es, (∀ e ∈ es, e.In {p}) ∧ ∃ s', runSteps ringStep s es = some s' ∧ s'.pc p = .idle ∧
    s'.locked = false ∧ s'.ledger = v.shm op i ∧ s'.now = v.now

namespace Reaches

variable {op : Op} {i : FsIdx} {p : ℕ} {v : View}

/-- It is there already. -/
theorem refl (hpc : s.pc p = .idle) (hlocked : s.locked = false)
    (hledger : s.ledger = v.shm op i) (hnow : s.now = v.now) : Reaches op i p s v :=
  ⟨[], nofun, s, rfl, hpc, hlocked, hledger, hnow⟩

/-- One step more at the front. -/
theorem cons (h : Reaches op i p s' v) (e : RingEvent) (he : e.In {p})
    (hs : ringStep s e = some s') : Reaches op i p s v := by
  obtain ⟨es, hes, t, hrun, ht⟩ := h
  refine ⟨e :: es, fun x hx => ?_, t, ?_, ht⟩
  · obtain rfl | hx := List.mem_cons.mp hx
    · exact he
    · exact hes x hx
  · rw [runSteps_cons, hs]
    exact hrun

/-- A delayed call sleeps with the mutex and stamps again. -/
theorem delay {c : RingCall} (e : CallEnv)
    (hpc : s.pc p = .delaying c (truncLong (1000000000 * (v.shm op i).dTToSleep)))
    (hlocked : s.locked = false) (hledger : s.ledger = v.shm op i) (hnow : s.now = v.now) :
    Reaches op i p s (delayCall op i v e c.nCallNew) := by
  set t := truncLong (1000000000 * (v.shm op i).dTToSleep) with ht
  set w := nanosleep v.now (Timespec.ofNs t) e.late with hw
  have hwake : nanosleep v.now (Timespec.ofNs t) 0 ≤ w := nanosleep_mono v.now _ zero_le
  obtain ⟨d, hd⟩ : ∃ d : ℚ≥0, v.now + (d : ℚ) = w :=
    ⟨⟨w - v.now, sub_nonneg.mpr (le_nanosleep v.now e.late)⟩, add_sub_cancel v.now w⟩
  refine ⟨[.act p .lock, .tick d, .act p .wake, .tick e.lagAfter, .act p .restamp],
    by simp [RingEvent.In], ?_⟩
  simp only [runSteps_cons, runSteps_nil, ringStep, hpc, hlocked, Bool.false_eq_true, if_false,
    Option.bind_some, RingState.move, RingState.write, Function.update_self, hnow, hd,
    if_pos hwake]
  refine ⟨_, rfl, ?_, rfl, ?_, ?_⟩
  · simp only [Function.update_self]
  · simp only [delayCall, Shm.set_self, hledger, Ledger.stamp, ← ht, ← hw]
  · simp only [delayCall, ← ht, ← hw]

/-- A stamped call is compared, and delayed when it is too early or was slow. -/
theorem compare {c : RingCall} (e : CallEnv) (freq : ℚ) (slow : Bool) {d : ℚ} {v₂ : View}
    (hpc : s.pc p = .stamped c) (hlocked : s.locked = false) (hledger : s.ledger = v.shm op i)
    (hnow : s.now = v.now) (hd : d = sleepTime freq (v.shm op i) c.nCallNew)
    (hv₂ : v₂ = { v with shm := v.shm.set op i { v.shm op i with dTToSleep := d } }) :
    Reaches op i p s (if c.nCallNew > 3 then
      if slow ∨ d > 0.0000001 then delayCall op i v₂ e c.nCallNew else v₂ else v) := by
  have hp : p ∈ ({p} : Finset ℕ) := Finset.mem_singleton_self p
  have hstep : ringStep s (.act p (.compare freq slow)) = some (if c.nCallNew > 3 then
      if slow ∨ d > 0.0000001 then
        { s with ledger := { s.ledger with dTToSleep := d } }.move p
          (.delaying c (truncLong (1000000000 * d)))
      else { s with ledger := { s.ledger with dTToSleep := d } }.move p .idle
      else s.move p .idle) := by
    simp only [ringStep, hpc, hledger, ← hd]
    split_ifs <;> rfl
  have hledger₂ : { s.ledger with dTToSleep := d } = v₂.shm op i := by
    simp only [hv₂, hledger, Shm.set_self]
  have hnow₂ : s.now = v₂.now := by rw [hv₂, hnow]
  have hd₂ : d = (v₂.shm op i).dTToSleep := by simp only [hv₂, Shm.set_self]
  refine cons ?_ (.act p (.compare freq slow)) hp hstep
  split_ifs
  · refine delay e ?_ hlocked hledger₂ hnow₂
    rw [← hd₂]
    exact Function.update_self ..
  · exact refl (Function.update_self ..) hlocked hledger₂ hnow₂
  · exact refl (Function.update_self ..) hlocked hledger hnow

/-- **One call in one go**: its steps do to the ledger and to the clock what the accounting
does. -/
theorem account (e : CallEnv) (hpc : s.pc p = .idle) (hlocked : s.locked = false)
    (hledger : s.ledger = v.shm op i) (hnow : s.now = v.now) :
    Reaches op i p s (account op i v e) := by
  have hp : p ∈ ({p} : Finset ℕ) := Finset.mem_singleton_self p
  refine cons ?_ (.act p .reserve) hp (by simp only [ringStep, hpc, hlocked]; rfl)
  refine cons ?_ (.tick e.lag) trivial rfl
  refine cons ?_ (.act p (.stamp (v.proc.withTid e.gettid).tid)) hp
    (by simp only [ringStep, RingState.move, Function.update_self]; rfl)
  have haccount : Ooops.account op i v e =
      let v₁ := enter op i v e
      let d := sleepTime (v₁.proc.maxFreq op i) (v₁.shm op i) s.ledger.count
      let v₂ : View := { v₁ with shm := v₁.shm.set op i { v₁.shm op i with dTToSleep := d } }
      if s.ledger.count > 3 then
        if decide (subUInt64 e.tNew (v.proc.tList i op) > v₂.proc.tThresholdInt64 op i) ∨
            d > 0.0000001 then delayCall op i v₂ e s.ledger.count else v₂
      else v₁ := by
    simp only [Ooops.account, hledger, decide_eq_true_eq]
  rw [haccount]
  refine compare (c := ⟨s.total, s.ledger.count⟩) e _ _ ?_ ?_ ?_ ?_ rfl rfl
  · exact Function.update_self ..
  · rfl
  · simp only [enter, RingState.write, Shm.set_self, hledger, hnow, CallEnv.stampTime,
      Ledger.stamp]
  · simp only [enter, RingState.write, hnow, CallEnv.stampTime]

end Reaches

end Ooops
