import Ooops.Basis.FloatNum
import Ooops.RateLimit

/-!
# Sleep Requests

The throttle computes in floating point: the frequencies are `float`, everything else is
`double`, and the time to sleep is cast to `long` for `nanosleep`. A call is delayed when it
should have come later, by more than a tenth of a microsecond, and also when the real call took
longer than the threshold, whatever the computed time is then. So a request may be for no time
or for a negative one, and with a frequency of zero or close to it for more than a `long` holds;
such a delay is counted like any other.

* `SleepRequest` is what a request is computed from, `SleepRequest.Valid` what it should be.
* `MachineView` is a view with the floating point numbers of the throttle in place of the exact
  ones, and `MachineView.throttle` the code on it.

## Main results

* `valid_iff`: a request is valid exactly if the frequency allows for more than the time that
  has passed, by a nanosecond at least and by less than what a `long` holds.
* `honest_delay_iff`: exactly when a call makes only a valid request and counts it.
* `account_withSleep`: where the two arithmetics ask for the same sleep, the exact model of the
  throttle does the same.
-/

open Basis

namespace Ooops

/-! ### The computed time -/

/-- The range of a `long`. -/
def InLong (x : ℤ) : Prop := -2 ^ 63 ≤ x ∧ x < 2 ^ 63

instance (x : ℤ) : Decidable (InLong x) := inferInstanceAs (Decidable (_ ∧ _))

/-- The cast `(long int)` of a `double`, where it has a value. -/
def toLong? (x : FloatNum binary64) : Option ℤ :=
  if x.IsFinite = true ∧ InLong (truncLong x.toRat) then some (truncLong x.toRat) else none

/-- What a request is computed from: the frequency of the server, the stamp of the call and
the stamp of the call three before it. -/
structure SleepRequest where
  maxFreq : FloatNum binary32
  cur : Timeval
  prev : Timeval

namespace SleepRequest

variable (r : SleepRequest)

/-- `N_SAMPLE_FOR_AVG / Max_open_Freq`, a division of two `float`s. -/
def permitted : FloatNum binary32 := (FloatNum.ofInt 3).div r.maxFreq

/-- The seconds between the two stamps. -/
def elapsed : FloatNum binary64 :=
  (FloatNum.ofInt (wrapInt64 (r.cur.tvSec - r.prev.tvSec))).add
    ((FloatNum.ofInt (wrapInt64 (r.cur.tvUsec - r.prev.tvUsec))).mul
      (FloatNum.ofRat false 0.000001))

/-- `dT_To_Sleep`. -/
def dTToSleep : FloatNum binary64 := r.permitted.toDouble.sub r.elapsed

/-- `dT_To_Sleep > 1.0E-7`. -/
def exceeds : Bool := (FloatNum.ofRat false 0.0000001).lt r.dTToSleep

/-- `1000000000.0 * dT_To_Sleep`. -/
def nanoseconds : FloatNum binary64 := (FloatNum.ofInt 1000000000).mul r.dTToSleep

/-- `t_ns_Sleep`. A value that no `long` holds is converted to the least one. -/
def tNsSleep : ℤ := (toLong? r.nanoseconds).getD (-2 ^ 63)

/-- The argument of `nanosleep`. -/
def timespec : Timespec := Timespec.ofNs r.tNsSleep

/-- A request for a positive time, computed without a division by zero and in the range of
`long`. -/
structure Valid : Prop where
  freq_ne_zero : r.maxFreq.IsFinite = true → r.maxFreq.toRat ≠ 0
  sec_inLong : InLong (r.cur.tvSec - r.prev.tvSec)
  usec_inLong : InLong (r.cur.tvUsec - r.prev.tvUsec)
  cast_inLong : (toLong? r.nanoseconds).isSome = true
  tvSec_nonneg : 0 ≤ r.timespec.tvSec
  tvNsec_nonneg : 0 ≤ r.timespec.tvNsec
  tvNsec_lt : r.timespec.tvNsec < 1000000000
  pos : 0 < r.timespec.toSec

/-- The time that the frequency allows for, less the time that has passed. -/
def margin : ℚ := r.permitted.toRat - r.elapsed.toRat

/-- The seconds up to which a margin is rounded to less than a nanosecond. -/
def leastMargin : ℚ := (4835703278458517 - 1 / 2) * 2 ^ (-82 : ℤ)

/-- The seconds up to which a margin is no reason for a sleep. -/
def ignoredMargin : ℚ := (7555786372591433 - 1 / 2) * 2 ^ (-76 : ℤ)

/-- The call comes too early. -/
def Early : Prop :=
  r.permitted = .inf false ∨ r.permitted.IsFinite = true ∧ ignoredMargin < r.margin

/-- The margin is a number of nanoseconds that a `long` holds. -/
structure InReach : Prop where
  isFinite : r.permitted.IsFinite = true
  sec_inLong : InLong (r.cur.tvSec - r.prev.tvSec)
  usec_inLong : InLong (r.cur.tvUsec - r.prev.tvUsec)
  least : leastMargin < r.margin
  greatest : r.margin ≤ 2 ^ 63 * leastMargin

/-! ### The value of a request -/

/-- The elapsed time is a finite number. -/
theorem elapsed_within : r.elapsed.Within 65 := by
  have hlong : ∀ x : ℤ, (FloatNum.ofInt (wrapInt64 x) : FloatNum binary64).Within 64 := by
    intro x
    refine FloatNum.Within.ofRat (by decide) (by decide) ?_
    have hbounds := wrapInt64_bounds x
    have hlow : -(2 : ℚ) ^ 63 ≤ wrapInt64 x := by exact_mod_cast hbounds.1
    have hhigh : (wrapInt64 x : ℚ) < 2 ^ 63 := by exact_mod_cast hbounds.2
    rw [abs_lt]
    constructor <;> norm_num at hlow hhigh ⊢ <;> linarith
  have hmicro : (FloatNum.ofRat false 0.000001 : FloatNum binary64).Within (-19) :=
    FloatNum.Within.ofRat (by decide) (by decide) (by norm_num)
  have hsec := hlong (r.cur.tvSec - r.prev.tvSec)
  have husec := hlong (r.cur.tvUsec - r.prev.tvUsec)
  obtain ⟨z, hmul⟩ := FloatNum.mul_eq husec.1 hmicro.1
  have hprod : (FloatNum.mul (F := binary64)
      (.ofInt (wrapInt64 (r.cur.tvUsec - r.prev.tvUsec))) (.ofRat false 0.000001)).Within 46 := by
    rw [hmul]
    refine FloatNum.Within.ofRat (by decide) (by decide) ?_
    rw [abs_mul]
    calc _ ≤ (2 : ℚ) ^ (64 : ℤ) * 2 ^ (-19 : ℤ) :=
          mul_le_mul husec.2 hmicro.2 (abs_nonneg _) (by norm_num)
      _ < 2 ^ (46 : ℤ) := by norm_num
  obtain ⟨z', hadd⟩ := FloatNum.add_eq hsec.1 hprod.1
  rw [elapsed, hadd]
  refine FloatNum.Within.ofRat (by decide) (by decide) ?_
  refine lt_of_le_of_lt (abs_add_le _ _) (lt_of_le_of_lt (add_le_add hsec.2 hprod.2) ?_)
  norm_num

/-- A finite margin gives a finite time to sleep, the double nearest to it. -/
theorem dTToSleep_of_isFinite (h : r.permitted.IsFinite = true) :
    r.dTToSleep.Within 130 ∧ r.dTToSleep.toRat = binary64.nearest r.margin := by
  have helapsed := r.elapsed_within
  have hpermitted := r.permitted.abs_toRat_lt
  obtain ⟨z, hsub⟩ := FloatNum.sub_eq ((FloatNum.isFinite_toDouble _).trans h) helapsed.1
  rw [FloatNum.toRat_toDouble] at hsub
  have hwithin : r.dTToSleep.Within 130 := by
    rw [dTToSleep, hsub]
    refine FloatNum.Within.ofRat (by decide) (by decide) ?_
    refine (abs_sub _ _).trans_lt ((add_lt_add_of_lt_of_le hpermitted helapsed.2).trans_le ?_)
    norm_num [binary32]
  refine ⟨hwithin, ?_⟩
  have hfinite := hwithin.1
  rw [dTToSleep, hsub] at hfinite ⊢
  exact FloatNum.toRat_ofRat hfinite

/-- The nanoseconds of a finite margin. -/
theorem nanoseconds_of_isFinite (h : r.permitted.IsFinite = true) :
    r.nanoseconds.IsFinite = true ∧
      r.nanoseconds.toRat = binary64.nearest (1000000000 * binary64.nearest r.margin) := by
  obtain ⟨hwithin, hvalue⟩ := r.dTToSleep_of_isFinite h
  have hbillion : (FloatNum.ofInt 1000000000 : FloatNum binary64).Within 30 :=
    FloatNum.Within.ofRat (by decide) (by decide) (by norm_num)
  have hexact : (FloatNum.ofInt 1000000000 : FloatNum binary64).toRat = 1000000000 := by
    decide +kernel
  obtain ⟨z, hmul⟩ := FloatNum.mul_eq hbillion.1 hwithin.1
  have hfinite : r.nanoseconds.IsFinite = true := by
    rw [nanoseconds, hmul]
    refine (FloatNum.Within.ofRat (j := 161) (by decide) (by decide) ?_).1
    rw [abs_mul]
    calc _ ≤ (2 : ℚ) ^ (30 : ℤ) * 2 ^ (130 : ℤ) :=
          mul_le_mul hbillion.2 hwithin.2 (abs_nonneg _) (by norm_num)
      _ < 2 ^ (161 : ℤ) := by norm_num
  refine ⟨hfinite, ?_⟩
  rw [nanoseconds, hmul] at hfinite ⊢
  rw [FloatNum.toRat_ofRat hfinite, hexact, hvalue]

/-- What a bound on the nanoseconds says about the margin. -/
theorem nearest_nanoseconds_iff {c : ℚ} (hc : 0 < c) {n e : ℤ} (h : binary64.Inner n e)
    (hodd : n % 2 = 1) (hfirst : c ≤ binary64.round (1000000000 * (n * 2 ^ e)))
    (hbefore : ¬c ≤ binary64.round (1000000000 * ((n - 1) * 2 ^ e))) (y : ℚ) :
    c ≤ binary64.nearest (1000000000 * binary64.nearest y) ↔ (n - 1 / 2) * 2 ^ e < y := by
  have hpow : (0 : ℚ) < 2 ^ e := zpow_pos (by norm_num) e
  have hone := h.one_le
  rcases le_or_gt 0 y with hy | hy
  · have hround := FloatFormat.round_nonneg (F := binary64) hy
    rw [FloatFormat.nearest_of_nonneg hy, FloatFormat.nearest_of_nonneg (by positivity)]
    refine h.threshold_iff (p := fun x => c ≤ binary64.round (1000000000 * x)) hodd ?_ hfirst
      hbefore hy
    intro a b ha hab hle
    exact hle.trans (FloatFormat.round_mono (by positivity) (by linarith))
  · have hneg := FloatFormat.nearest_nonpos (F := binary64) hy.le
    have hneg' : binary64.nearest (1000000000 * binary64.nearest y) ≤ 0 :=
      FloatFormat.nearest_nonpos (by linarith)
    refine iff_of_false (by linarith) (fun hlt => ?_)
    have hmid : (0 : ℚ) ≤ (n - 1 / 2) * 2 ^ e := mul_nonneg (by linarith) hpow.le
    linarith

/-- Where the nanoseconds come to one. -/
theorem one_le_nanoseconds_iff (y : ℚ) :
    1 ≤ binary64.nearest (1000000000 * binary64.nearest y) ↔ leastMargin < y := by
  have hinner : binary64.Inner 4835703278458517 (-82) := ⟨by decide, by decide, by decide⟩
  have hiff := nearest_nanoseconds_iff one_pos hinner (by decide) (by decide +kernel)
    (by decide +kernel) y
  exact_mod_cast hiff

/-- Where the nanoseconds pass the range of `long`. -/
theorem nanoseconds_lt_iff (y : ℚ) :
    binary64.nearest (1000000000 * binary64.nearest y) < 2 ^ 63 ↔ y ≤ 2 ^ 63 * leastMargin := by
  have hinner : binary64.Inner 4835703278458517 (-19) := ⟨by decide, by decide, by decide⟩
  have hiff := nearest_nanoseconds_iff (c := 2 ^ 63) (by norm_num) hinner (by decide)
    (by decide +kernel) (by decide +kernel) y
  have hscale : 2 ^ 63 * leastMargin = (((4835703278458517 : ℤ) : ℚ) - 1 / 2) * 2 ^ (-19 : ℤ) := by
    rw [leastMargin]
    norm_num
  rw [hscale, ← not_lt, ← hiff, not_le]

/-- What a tenth of a microsecond as a bound says about the margin. -/
theorem tenth_lt_nearest_iff (y : ℚ) :
    binary64.round 0.0000001 < binary64.nearest y ↔ ignoredMargin < y := by
  have hinner : binary64.Inner 7555786372591433 (-76) := ⟨by decide, by decide, by decide⟩
  have hmid : ignoredMargin = (((7555786372591433 : ℤ) : ℚ) - 1 / 2) * 2 ^ (-76 : ℤ) := by
    rw [ignoredMargin]
    norm_num
  rw [hmid]
  rcases le_or_gt 0 y with hy | hy
  · rw [FloatFormat.nearest_of_nonneg hy]
    exact hinner.threshold_iff (p := fun x => binary64.round 0.0000001 < x) (by decide)
      (fun _ hab hlt => hlt.trans_le hab) (by decide +kernel) (by decide +kernel) hy
  · have hneg := FloatFormat.nearest_nonpos (F := binary64) hy.le
    have hpos := FloatFormat.round_nonneg (F := binary64) (x := 0.0000001) (by norm_num)
    refine iff_of_false (by linarith) (fun hlt => ?_)
    norm_num at hlt
    linarith

/-- A time that is not a finite number is what the frequency gives. -/
theorem dTToSleep_of_not_isFinite (h : r.permitted.IsFinite = false) :
    r.dTToSleep = r.permitted.toDouble := by
  have helapsed := r.elapsed_within.1
  rw [dTToSleep]
  cases hp : r.permitted with
  | nan => rfl
  | inf s =>
      cases he : r.elapsed with
      | nan | inf => rw [he] at helapsed; cases helapsed
      | finite => rfl
  | finite => rw [hp] at h; cases h

/-- **When the branch for early calls is taken.** -/
theorem exceeds_iff : r.exceeds = true ↔ r.Early := by
  have htenth : (FloatNum.ofRat false 0.0000001 : FloatNum binary64).Within (-20) :=
    FloatNum.Within.ofRat (by decide) (by decide) (by norm_num)
  have hvalue : (FloatNum.ofRat false 0.0000001 : FloatNum binary64).toRat =
      binary64.round 0.0000001 := by
    rw [FloatNum.toRat_ofRat htenth.1, FloatFormat.nearest_of_nonneg (by norm_num)]
  rw [exceeds, Early]
  cases hfinite : r.permitted.IsFinite with
  | true =>
      obtain ⟨hwithin, hmargin⟩ := r.dTToSleep_of_isFinite hfinite
      have hne : r.permitted ≠ .inf false := by
        intro heq
        rw [heq] at hfinite
        cases hfinite
      rw [FloatNum.lt_iff htenth.1 hwithin.1, hvalue, hmargin, or_iff_right hne,
        and_iff_right rfl]
      exact tenth_lt_nearest_iff r.margin
  | false =>
      rw [r.dTToSleep_of_not_isFinite hfinite]
      have hlt : ∀ y : FloatNum binary64, y.IsFinite = false →
          ((FloatNum.ofRat false 0.0000001).lt y = true ↔ y = .inf false) := by
        intro y hy
        cases hc : (FloatNum.ofRat false 0.0000001 : FloatNum binary64) with
        | nan | inf => rw [hc] at htenth; cases htenth.1
        | finite => cases y with
          | nan => simp [FloatNum.lt]
          | inf s => cases s <;> simp [FloatNum.lt]
          | finite => cases hy
      rw [hlt _ ((FloatNum.isFinite_toDouble _).trans hfinite)]
      cases r.permitted <;> simp [FloatNum.toDouble]

/-- The cast has a positive value exactly for a margin in reach. -/
theorem cast_pos_iff : (∃ n, toLong? r.nanoseconds = some n ∧ 0 < n) ↔
    r.permitted.IsFinite = true ∧ leastMargin < r.margin ∧ r.margin ≤ 2 ^ 63 * leastMargin := by
  have hcast : ∀ x : ℚ, InLong (truncLong x) ∧ 0 < truncLong x ↔ 1 ≤ x ∧ x < 2 ^ 63 := by
    intro x
    have hone : truncLong x < 1 ↔ x < 1 := by
      exact_mod_cast truncLong_lt_iff (x := x) one_pos
    have hmax : truncLong x < 2 ^ 63 ↔ x < 2 ^ 63 := by
      have hlt := truncLong_lt_iff (x := x) (n := 9223372036854775808) (by norm_num)
      norm_num at hlt ⊢
      exact hlt
    rw [← not_lt, ← hone, ← hmax, InLong]
    omega
  constructor
  · rintro ⟨n, hn, hpos⟩
    rw [toLong?] at hn
    split at hn
    case isFalse => cases hn
    case isTrue hlong =>
      have hfinite : r.permitted.IsFinite = true := by
        rw [← FloatNum.isFinite_toDouble]
        exact (FloatNum.isFinite_of_add (FloatNum.isFinite_of_mul hlong.1).2).1
      rw [← Option.some.inj hn] at hpos
      have hbounds := (hcast _).mp ⟨hlong.2, hpos⟩
      rw [(r.nanoseconds_of_isFinite hfinite).2, one_le_nanoseconds_iff,
        nanoseconds_lt_iff] at hbounds
      exact ⟨hfinite, hbounds⟩
  · rintro ⟨hfinite, hbounds⟩
    obtain ⟨hns, hvalue⟩ := r.nanoseconds_of_isFinite hfinite
    rw [← one_le_nanoseconds_iff, ← nanoseconds_lt_iff, ← hvalue, ← hcast] at hbounds
    exact ⟨_, if_pos ⟨hns, hbounds.1⟩, hbounds.2⟩

/-- **When a request is valid.** -/
theorem valid_iff : r.Valid ↔ r.InReach := by
  constructor
  · intro h
    obtain ⟨n, hn⟩ := Option.isSome_iff_exists.mp h.cast_inLong
    have hpos := h.pos
    rw [timespec, tNsSleep, hn, Option.getD_some, Timespec.toSec_ofNs] at hpos
    have hpos' : (0 : ℚ) < n := by linarith
    obtain ⟨hfinite, hleast, hgreatest⟩ :=
      r.cast_pos_iff.mp ⟨n, hn, by exact_mod_cast hpos'⟩
    exact ⟨hfinite, h.sec_inLong, h.usec_inLong, hleast, hgreatest⟩
  · intro h
    obtain ⟨n, hn, hpos⟩ := r.cast_pos_iff.mpr ⟨h.isFinite, h.least, h.greatest⟩
    have htimespec : r.timespec = Timespec.ofNs n := by
      rw [timespec, tNsSleep, hn, Option.getD_some]
    have hvalid := Timespec.valid_ofNs hpos.le
    rw [Timespec.valid, decide_eq_true_eq] at hvalid
    have hpos' : (0 : ℚ) < n := by exact_mod_cast hpos
    exact {
      freq_ne_zero := FloatNum.toRat_ne_zero_of_div h.isFinite
      sec_inLong := h.sec_inLong
      usec_inLong := h.usec_inLong
      cast_inLong := Option.isSome_of_eq_some hn
      tvSec_nonneg := htimespec ▸ hvalid.1
      tvNsec_nonneg := htimespec ▸ hvalid.2.1
      tvNsec_lt := htimespec ▸ hvalid.2.2
      pos := by
        rw [htimespec, Timespec.toSec_ofNs]
        linarith }

end SleepRequest

/-! ### The throttle in floating point -/

/-- A view with the floating point numbers of the throttle, which take the place of the exact
frequencies and times in `view`. -/
structure MachineView where
  view : View
  maxFreq : Op → FsIdx → FloatNum binary32
  maxFreqShare : Op → FsIdx → FloatNum binary32
  dTToSleep : Op → FsIdx → FloatNum binary64

/-- Sleep for `tNsSleep` nanoseconds, count the delay and stamp the slot again. -/
def delayFor (op : Op) (i : FsIdx) (v : View) (e : CallEnv) (nCallNew tNsSleep : ℤ) : View :=
  let l := v.shm op i
  let now := nanosleep v.now (Timespec.ofNs tNsSleep) e.late + e.lagAfter
  { v with
    proc :=
      { v.proc with
        nCallDelayed := Function.update v.proc.nCallDelayed op
          (Function.update (v.proc.nCallDelayed op) i (v.proc.nCallDelayed op i + 1)) }
    shm := v.shm.set op i
      ({ l with delayedCount := wrapInt32 (l.delayedCount + 1) }.stamp
        (fastMod nCallNew) (gettimeofday now))
    now := now }

/-- The view with a computed time to sleep in a ledger. -/
def View.withSleep (v : View) (op : Op) (i : FsIdx) (d : ℚ) : View :=
  { v with shm := v.shm.set op i { v.shm op i with dTToSleep := d } }

/-- The delay of the exact throttle is one for the nanoseconds of its time to sleep. -/
theorem delayCall_withSleep (op : Op) (i : FsIdx) (v : View) (e : CallEnv) (n : ℤ) (d : ℚ) :
    delayCall op i (v.withSleep op i d) e n =
      (delayFor op i v e n (truncLong (1000000000 * d))).withSleep op i d := by
  simp only [delayCall, delayFor, View.withSleep, Shm.set_self, Shm.set_set, Ledger.stamp]

namespace MachineView

/-- Take over new parameters when the block carries another time stamp. -/
def refresh (m : MachineView) : MachineView :=
  { m with
    view := Ooops.refresh m.view
    maxFreq :=
      if m.view.proc.tUpdatedParam ≠ m.view.param.tUpdatedParam ∧ m.view.param.pDisabled ≠ 1 then
        fun op i =>
          if m.view.param.fsTagLen i = 0 then m.maxFreq op i else m.maxFreqShare op i
      else m.maxFreq }

/-- Store a computed time to sleep. -/
def setSleep (m : MachineView) (op : Op) (i : FsIdx) (d : FloatNum binary64) : MachineView :=
  { m with
    dTToSleep := Function.update m.dTToSleep op (Function.update (m.dTToSleep op) i d) }

/-- The accounting of a tracked call, and the request that it makes. -/
def account (op : Op) (i : FsIdx) (m : MachineView) (e : CallEnv) :
    MachineView × Option SleepRequest :=
  let nCallNew := (m.view.shm op i).count
  let dt := subUInt64 e.tNew (m.view.proc.tList i op)
  let m := { m with view := enter op i m.view e }.setSleep op i (.ofInt 0)
  if nCallNew > 3 then
    let l := m.view.shm op i
    let r : SleepRequest :=
      ⟨m.maxFreq op i, l.tList (fastMod nCallNew), l.tList (fastMod (nCallNew - 3))⟩
    let m := m.setSleep op i r.dTToSleep
    if dt > m.view.proc.tThresholdInt64 op i ∨ r.exceeds = true then
      ({ m with view := delayFor op i m.view e nCallNew r.tNsSleep }, some r)
    else (m, none)
  else (m, none)

/-- The common body of `Update_open_Count` and `post_lxstat`. -/
def throttle (op : Op) (m : MachineView) (e : CallEnv) : MachineView × Option SleepRequest :=
  let m := m.refresh
  if m.view.proc.active = false then (m, none)
  else if m.view.proc.shmReady = false then (m, none)
  else
    match m.view.proc.idxFsServer with
    | none => (m, none)
    | some i => account op i m e

/-- `Update_open_Count`. -/
def updateOpenCount (m : MachineView) (e : CallEnv) : MachineView × Option SleepRequest :=
  m.throttle .openFile e

/-- `post_lxstat`. -/
def postLxstat (m : MachineView) (e : CallEnv) : MachineView × Option SleepRequest :=
  m.throttle .lxstat e

/-! ### What a call asks for -/

/-- The call is accounted for on server `i`. -/
def Tracks (m : MachineView) (i : FsIdx) : Prop :=
  m.view.proc.active = true ∧ m.view.proc.shmReady = true ∧ m.view.proc.idxFsServer = some i

/-- The operands of the sleep, as they are before the call: its stamp is that of the clock. -/
def request (m : MachineView) (op : Op) (i : FsIdx) (e : CallEnv) : SleepRequest :=
  ⟨m.maxFreq op i, gettimeofday (e.stampTime m.view.now),
    (m.view.shm op i).tList (fastMod ((m.view.shm op i).count - 3))⟩

/-- The call is delayed: it is not one of the first ones, and took too long or comes early. -/
def Delays (m : MachineView) (op : Op) (i : FsIdx) (e : CallEnv) : Prop :=
  3 < (m.view.shm op i).count ∧
    (m.view.proc.tThresholdInt64 op i < subUInt64 e.tNew (m.view.proc.tList i op) ∨
      (m.request op i e).Early)

/-- Counting a call leaves the thresholds alone. -/
theorem threshold_enter (op : Op) (i : FsIdx) (v : View) (e : CallEnv) :
    (enter op i v e).proc.tThresholdInt64 = v.proc.tThresholdInt64 := by
  have hset := congrArg Proc.tThresholdInt64 (accounted_enter op i v e).settings
  exact hset

/-- **What the accounting of a call does**: a delayed call makes its request and counts it,
any other one does neither. -/
theorem account_cases (op : Op) (i : FsIdx) (m : MachineView) (e : CallEnv) :
    (m.Delays op i e ∧ (account op i m e).2 = some (m.request op i e) ∧
      (account op i m e).1.view = delayFor op i (enter op i m.view e) e
        (m.view.shm op i).count (m.request op i e).tNsSleep) ∨
    (¬m.Delays op i e ∧ (account op i m e).2 = none ∧
      (account op i m e).1.view = enter op i m.view e) := by
  have henter := accounted_enter op i m.view e
  have hthreshold := threshold_enter op i m.view e
  have hcur : ((enter op i m.view e).shm op i).tList (fastMod (m.view.shm op i).count) =
      gettimeofday (e.stampTime m.view.now) := by
    rw [henter.tList, Function.update_self]
  have hprev : ((enter op i m.view e).shm op i).tList (fastMod ((m.view.shm op i).count - 3)) =
      (m.view.shm op i).tList (fastMod ((m.view.shm op i).count - 3)) := by
    rw [henter.tList, Function.update_of_ne (fastMod_sub_three_ne _)]
  have hrequest : m.request op i e = ⟨m.maxFreq op i, gettimeofday (e.stampTime m.view.now),
    (m.view.shm op i).tList (fastMod ((m.view.shm op i).count - 3))⟩ := rfl
  have hexceeds := (m.request op i e).exceeds_iff
  by_cases hdelays : m.Delays op i e
  · have hbranch := hdelays.2.imp_right hexceeds.mpr
    refine .inl ⟨hdelays, ?_⟩
    rw [account]
    simp only [setSleep, hcur, hprev, hthreshold, gt_iff_lt, ← hrequest]
    rw [if_pos hdelays.1, if_pos hbranch]
    exact ⟨rfl, rfl⟩
  · refine .inr ⟨hdelays, ?_⟩
    rw [account]
    simp only [setSleep, hcur, hprev, hthreshold, gt_iff_lt, ← hrequest]
    split
    case isFalse => exact ⟨rfl, rfl⟩
    case isTrue hn =>
      rw [if_neg fun hbranch => hdelays ⟨hn, hbranch.imp_right hexceeds.mp⟩]
      exact ⟨rfl, rfl⟩

/-- The call is on no server, or the library is switched off or not ready. -/
theorem throttle_cases (op : Op) (m : MachineView) (e : CallEnv) :
    (∃ i, m.refresh.Tracks i ∧ m.throttle op e = account op i m.refresh e) ∨
      (∀ i, ¬m.refresh.Tracks i) ∧ m.throttle op e = (m.refresh, none) := by
  rw [throttle]
  split
  case isTrue hactive =>
    refine .inr ⟨fun i h => ?_, rfl⟩
    rw [h.1] at hactive
    cases hactive
  split
  case isTrue hready =>
    refine .inr ⟨fun i h => ?_, rfl⟩
    rw [h.2.1] at hready
    cases hready
  split
  case h_1 hidx =>
    refine .inr ⟨fun i h => ?_, rfl⟩
    rw [h.2.2] at hidx
    cases hidx
  case h_2 hactive hready _ i hidx =>
    exact .inl ⟨i, ⟨Bool.not_eq_false _ ▸ hactive, Bool.not_eq_false _ ▸ hready, hidx⟩, rfl⟩

/-! ### Honest delays -/

/-- The request that a call makes is valid, and the `Delayed_Count` of its server is increased
by a call that makes one and left alone by any other. -/
structure HonestDelay (op : Op) (m : MachineView) (out : MachineView × Option SleepRequest) :
    Prop where
  valid : ∀ r, out.2 = some r → r.Valid
  counted : ∀ i, m.view.proc.idxFsServer = some i → (∃ r, out.2 = some r ∧ r.Valid) →
    (out.1.view.shm op i).delayedCount = (m.view.shm op i).delayedCount + 1
  kept : ∀ op' i, ¬(op' = op ∧ m.view.proc.idxFsServer = some i ∧
      ∃ r, out.2 = some r ∧ r.Valid) →
    (out.1.view.shm op' i).delayedCount = (m.view.shm op' i).delayedCount

/-- The counter can be increased in the range of `int`. -/
def HasRoom (count : ℤ) : Prop := -2 ^ 31 ≤ count + 1 ∧ count + 1 < 2 ^ 31

/-- Counting a call leaves the delay counters alone. -/
theorem delayedCount_enter (op op' : Op) (i i' : FsIdx) (v : View) (e : CallEnv) :
    ((enter op i v e).shm op' i').delayedCount = (v.shm op' i').delayedCount := by
  by_cases h : op' = op ∧ i' = i
  · obtain ⟨rfl, rfl⟩ := h
    simp only [enter, Shm.set_self, Ledger.stamp]
  · rw [(accounted_enter op i v e).others op' i' h]

/-- An increase is exact if there is room for it. -/
theorem wrapInt32_eq_iff_hasRoom (count : ℤ) :
    wrapInt32 (count + 1) = count + 1 ↔ HasRoom count := by
  constructor
  · intro h
    have hbounds := wrapInt32_bounds (count + 1)
    rwa [h] at hbounds
  · rintro ⟨h₁, h₂⟩
    exact wrapInt32_eq_self h₁ h₂

/-- Exactly when the accounting of a call is honest. -/
theorem account_honest_iff {op : Op} {i : FsIdx} {m₀ m : MachineView} {e : CallEnv}
    (hshm : m.view.shm = m₀.view.shm) (hidx : m₀.view.proc.idxFsServer = some i) :
    HonestDelay op m₀ (account op i m e) ↔
      (m.Delays op i e → (m.request op i e).InReach ∧
        HasRoom (m₀.view.shm op i).delayedCount) := by
  rcases account_cases op i m e with ⟨hdelays, hrequest, hview⟩ | ⟨hdelays, hrequest, hview⟩
  · have hcount : ((account op i m e).1.view.shm op i).delayedCount =
        wrapInt32 ((m₀.view.shm op i).delayedCount + 1) := by
      rw [hview]
      simp only [delayFor, Shm.set_self, Ledger.stamp, delayedCount_enter, hshm]
    have hothers : ∀ op' i', ¬(op' = op ∧ i' = i) →
        ((account op i m e).1.view.shm op' i').delayedCount =
          (m₀.view.shm op' i').delayedCount := by
      intro op' i' hne
      rw [hview]
      simp only [delayFor, Shm.set_of_ne hne, delayedCount_enter, hshm]
    constructor
    · intro h hdel
      have hvalid := h.valid _ hrequest
      have hcounted := h.counted i hidx ⟨_, hrequest, hvalid⟩
      rw [hcount, wrapInt32_eq_iff_hasRoom] at hcounted
      exact ⟨(m.request op i e).valid_iff.mp hvalid, hcounted⟩
    · intro h
      obtain ⟨hreach, hroom⟩ := h hdelays
      have hvalid := (m.request op i e).valid_iff.mpr hreach
      refine ⟨fun r hr => ?_, fun j hj _ => ?_, fun op' j hnot => ?_⟩
      · rw [hrequest] at hr
        rwa [← Option.some.inj hr]
      · rw [hidx] at hj
        rw [← Option.some.inj hj, hcount, wrapInt32_eq_iff_hasRoom]
        exact hroom
      · refine hothers op' j fun heq => hnot ⟨heq.1, ?_, _, hrequest, hvalid⟩
        rw [heq.2, hidx]
  · refine iff_of_true ⟨fun r hr => ?_, fun j _ hr => ?_, fun op' j _ => ?_⟩
      (fun hdel => absurd hdel hdelays)
    · rw [hrequest] at hr
      cases hr
    · obtain ⟨r, hr, -⟩ := hr
      rw [hrequest] at hr
      cases hr
    · rw [hview, delayedCount_enter, hshm]

/-- New parameters change neither the ledgers nor the server of the call. -/
theorem view_refresh (m : MachineView) : m.refresh.view.shm = m.view.shm ∧
    m.refresh.view.proc.idxFsServer = m.view.proc.idxFsServer := by
  simp only [refresh, Ooops.refresh]
  split
  · refine ⟨rfl, ?_⟩
    rw [updateParameters]
    split <;> rfl
  · exact ⟨rfl, rfl⟩

/-- Exactly when a call of either kind is honest. -/
theorem throttle_honest_iff (op : Op) (m : MachineView) (e : CallEnv) :
    HonestDelay op m (m.throttle op e) ↔
      ∀ i, m.refresh.Tracks i → m.refresh.Delays op i e →
        (m.refresh.request op i e).InReach ∧ HasRoom (m.view.shm op i).delayedCount := by
  obtain ⟨hshm, hidx⟩ := m.view_refresh
  rcases throttle_cases op m e with ⟨i, htracks, heq⟩ | ⟨hnone, heq⟩
  · rw [heq, account_honest_iff hshm (hidx ▸ htracks.2.2)]
    constructor
    · intro h j hj
      have hij : i = j := Option.some.inj (htracks.2.2.symm.trans hj.2.2)
      exact hij ▸ h
    · intro h
      exact h i htracks
  · rw [heq]
    refine iff_of_true ⟨fun r hr => ?_, fun j _ hr => ?_, fun op' j _ => ?_⟩
      (fun i hi => absurd hi (hnone i))
    · cases hr
    · obtain ⟨r, hr, -⟩ := hr
      cases hr
    · rw [hshm]

/-- **Valid requests and honest counts.** A call of `Update_open_Count` or `post_lxstat` makes
only a valid request, and counts exactly that, if and only if, whenever it is delayed, its
margin is a number of nanoseconds that a `long` holds and the counter can be increased. -/
theorem honest_delay_iff (m : MachineView) (e : CallEnv) :
    (HonestDelay .openFile m (m.updateOpenCount e) ↔
      ∀ i, m.refresh.Tracks i → m.refresh.Delays .openFile i e →
        (m.refresh.request .openFile i e).InReach ∧
          HasRoom (m.view.shm .openFile i).delayedCount) ∧
    (HonestDelay .lxstat m (m.postLxstat e) ↔
      ∀ i, m.refresh.Tracks i → m.refresh.Delays .lxstat i e →
        (m.refresh.request .lxstat i e).InReach ∧
          HasRoom (m.view.shm .lxstat i).delayedCount) :=
  ⟨throttle_honest_iff .openFile m e, throttle_honest_iff .lxstat m e⟩

/-! ### The exact throttle -/

/-- **The exact throttle does the same** where its time to sleep and the one in floating point
are the same reason for a delay and the same number of nanoseconds. -/
theorem account_withSleep {op : Op} {i : FsIdx} {m : MachineView} {e : CallEnv} {d : ℚ}
    (hd : d = 3 / m.view.proc.maxFreq op i -
      (m.request op i e).cur.since (m.request op i e).prev)
    (hearly : (m.request op i e).Early ↔ 0.0000001 < d)
    (hns : (m.request op i e).tNsSleep = truncLong (1000000000 * d)) :
    Ooops.account op i m.view e =
      if 3 < (m.view.shm op i).count then (account op i m e).1.view.withSleep op i d
      else (account op i m e).1.view := by
  have hthreshold := threshold_enter op i m.view e
  have hsleep := sleepTime_enter op i m.view e
  have hd' := hd.symm
  rw [request] at hd'
  rw [hd'] at hsleep
  rw [Ooops.account]
  dsimp only
  rw [hsleep, hthreshold]
  rcases account_cases op i m e with ⟨hdelays, -, hview⟩ | ⟨hdelays, -, hview⟩
  · have hbranch := hdelays.2.imp_right hearly.mp
    rw [if_pos hdelays.1, if_pos hbranch, if_pos hdelays.1, hview, hns]
    exact delayCall_withSleep op i (enter op i m.view e) e _ d
  · rw [hview]
    split
    case isFalse => rfl
    case isTrue hn =>
      rw [if_neg fun hbranch => hdelays ⟨hn, hbranch.imp_right hearly.mpr⟩]
      rfl

/-! ### Two failing calls -/

/-- The fifth `open` on a server, a second after the one three before it. -/
def fifthOpen (maxFreq : FloatNum binary32) : MachineView where
  view :=
    { scratchView with
      proc := { scratchProc with idxFsServer := some 0 }
      shm := fun _ _ =>
        { Ledger.zero with count := 4, tList := fun _ => ⟨1699999999, 0⟩ } }
  maxFreq := fun _ _ => maxFreq
  maxFreqShare := fun _ _ => maxFreq
  dTToSleep := fun _ _ => .ofInt 0

/-- An `open` that took the ticks `tNew`. -/
def openTook (tNew : ℕ) : CallEnv := ⟨bytesOf "/scratch/a", 0, tNew, 4711, 0, 0, 0⟩

/-- At most 1000 calls a second are allowed, and the call comes after a second: it is delayed
for being slow, and the sleep it asks for is negative. With a maximum frequency of zero it is
delayed in any case, by the least `long`. Both delays are counted. -/
theorem refused_sleeps_counted :
    (((fifthOpen (.ofInt 1000)).updateOpenCount (openTook 2000000)).2.map
        SleepRequest.timespec = some ⟨0, -996999999⟩ ∧
      (((fifthOpen (.ofInt 1000)).updateOpenCount (openTook 2000000)).1.view.shm
        .openFile 0).delayedCount = 1 ∧
      ¬HonestDelay .openFile (fifthOpen (.ofInt 1000))
        ((fifthOpen (.ofInt 1000)).updateOpenCount (openTook 2000000))) ∧
    (((fifthOpen (.ofInt 0)).updateOpenCount (openTook 0)).2.map
        SleepRequest.timespec = some ⟨-9223372036, -854775808⟩ ∧
      (((fifthOpen (.ofInt 0)).updateOpenCount (openTook 0)).1.view.shm
        .openFile 0).delayedCount = 1 ∧
      ¬HonestDelay .openFile (fifthOpen (.ofInt 0))
        ((fifthOpen (.ofInt 0)).updateOpenCount (openTook 0))) := by
  have hrefused : ∀ {m : MachineView} {e : CallEnv} {t : Timespec}, t.tvNsec < 0 →
      (m.updateOpenCount e).2.map SleepRequest.timespec = some t →
      ¬HonestDelay .openFile m (m.updateOpenCount e) := by
    intro m e t ht hmap h
    obtain ⟨r, hr, htime⟩ := Option.map_eq_some_iff.mp hmap
    have hnonneg := (h.valid r hr).tvNsec_nonneg
    rw [htime] at hnonneg
    omega
  have hslow : ((fifthOpen (.ofInt 1000)).updateOpenCount (openTook 2000000)).2.map
      SleepRequest.timespec = some ⟨0, -996999999⟩ := by decide +kernel
  have hzero : ((fifthOpen (.ofInt 0)).updateOpenCount (openTook 0)).2.map
      SleepRequest.timespec = some ⟨-9223372036, -854775808⟩ := by decide +kernel
  exact ⟨⟨hslow, by decide +kernel, hrefused (by decide) hslow⟩,
    ⟨hzero, by decide +kernel, hrefused (by decide) hzero⟩⟩

end MachineView

end Ooops
