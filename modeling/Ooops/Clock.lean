import Mathlib.Data.Rat.Floor
import Mathlib.Tactic.Linarith
import Mathlib.Tactic.NormNum
import Mathlib.Tactic.FieldSimp
import Mathlib.Tactic.Ring

/-!
# Time Stamps and Sleeping

The throttle reads the clock with `gettimeofday`, which reports whole microseconds, and
delays a call with `nanosleep`. Real time is a rational number of seconds; every rounding
that the calls and the casts of the source make is a floor or a truncation of this module.

* `gettimeofday` stamps the last whole microsecond, so a stamp is at most one microsecond
  behind the real time (`stamp_le_now`, `now_lt_stamp_add`).
* `nanosleep` returns no earlier than the request asks for when the request is valid, and
  at once when it is not (`EINVAL`).
* `truncLong` is the cast `(long int)` of a `double`: truncation towards zero. The
  arithmetic is exact here; the range of `long` and the rounding of `double` are the concern
  of the module on sleep requests.
-/

namespace Ooops

/-- `struct timeval`. -/
structure Timeval where
  tvSec : ℤ
  tvUsec : ℤ
  deriving DecidableEq, Repr

/-- `struct timespec`. -/
structure Timespec where
  tvSec : ℤ
  tvNsec : ℤ
  deriving DecidableEq, Repr

/-- The time stamp of zero-filled memory. -/
def Timeval.zero : Timeval := ⟨0, 0⟩

/-- The time stamp as a number of seconds. -/
def Timeval.toSec (t : Timeval) : ℚ := t.tvSec + t.tvUsec * 0.000001

/-- `gettimeofday` at the real time `now`: the whole microseconds that have passed. -/
def gettimeofday (now : ℚ) : Timeval :=
  ⟨⌊now * 1000000⌋ / 1000000, ⌊now * 1000000⌋ % 1000000⟩

/-- The difference of two time stamps as the throttle computes it: seconds and
microseconds are subtracted apart. -/
def Timeval.since (cur prev : Timeval) : ℚ :=
  ((cur.tvSec - prev.tvSec : ℤ) : ℚ) + ((cur.tvUsec - prev.tvUsec : ℤ) : ℚ) * 0.000001

/-- The cast `(long int)` of a floating point value: truncation towards zero. -/
def truncLong (x : ℚ) : ℤ := if 0 ≤ x then ⌊x⌋ else ⌈x⌉

/-- The request that the throttle hands to `nanosleep` for `ns` nanoseconds; `/` and `%`
of C truncate towards zero. -/
def Timespec.ofNs (ns : ℤ) : Timespec :=
  ⟨ns.tdiv 1000000000, ns.tmod 1000000000⟩

/-- Whether `nanosleep` accepts a request. -/
def Timespec.valid (r : Timespec) : Bool :=
  decide (0 ≤ r.tvSec ∧ 0 ≤ r.tvNsec ∧ r.tvNsec < 1000000000)

/-- The length of a request in seconds. -/
def Timespec.toSec (r : Timespec) : ℚ := r.tvSec + r.tvNsec * 0.000000001

/-- The real time at which `nanosleep` returns when it is called at `now`: a valid request
is slept out, with `late` seconds more, an invalid one is refused at once. -/
def nanosleep (now : ℚ) (r : Timespec) (late : ℚ≥0) : ℚ :=
  if r.valid then now + r.toSec + late else now

/-- The stamp of the real time is the floor of its microseconds. -/
theorem toSec_gettimeofday (now : ℚ) :
    (gettimeofday now).toSec = ⌊now * 1000000⌋ * 0.000001 := by
  have h : (1000000 : ℤ) * (⌊now * 1000000⌋ / 1000000) + ⌊now * 1000000⌋ % 1000000
      = ⌊now * 1000000⌋ := Int.mul_ediv_add_emod _ _
  have hq : (1000000 : ℚ) * ((⌊now * 1000000⌋ / 1000000 : ℤ) : ℚ)
      + ((⌊now * 1000000⌋ % 1000000 : ℤ) : ℚ) = (⌊now * 1000000⌋ : ℚ) := by
    exact_mod_cast h
  simp only [Timeval.toSec, gettimeofday]
  linarith

/-- A stamp is never ahead of the real time. -/
theorem stamp_le_now (now : ℚ) : (gettimeofday now).toSec ≤ now := by
  rw [toSec_gettimeofday]
  have h := Int.floor_le (now * 1000000)
  linarith

/-- A stamp is less than a microsecond behind the real time. -/
theorem now_lt_stamp_add (now : ℚ) : now < (gettimeofday now).toSec + 0.000001 := by
  rw [toSec_gettimeofday]
  have h := Int.lt_floor_add_one (now * 1000000)
  linarith

/-- Stamps do not decrease when real time does not. -/
theorem stamp_mono {t₁ t₂ : ℚ} (h : t₁ ≤ t₂) :
    (gettimeofday t₁).toSec ≤ (gettimeofday t₂).toSec := by
  rw [toSec_gettimeofday, toSec_gettimeofday]
  have hf : ⌊t₁ * 1000000⌋ ≤ ⌊t₂ * 1000000⌋ := Int.floor_le_floor (by linarith)
  have hq : (⌊t₁ * 1000000⌋ : ℚ) ≤ ⌊t₂ * 1000000⌋ := by exact_mod_cast hf
  linarith

/-- The throttle's difference is the difference of the two stamps in seconds. -/
theorem Timeval.since_eq (cur prev : Timeval) :
    cur.since prev = cur.toSec - prev.toSec := by
  simp only [Timeval.since, Timeval.toSec, Int.cast_sub]
  ring

/-- Truncation loses less than one. -/
theorem lt_truncLong_add_one (x : ℚ) : x < truncLong x + 1 := by
  rw [truncLong]
  split
  · exact Int.lt_floor_add_one x
  · have := Int.le_ceil x
    linarith

/-- Truncation stays below a positive bound exactly if the value does. -/
theorem truncLong_lt_iff {x : ℚ} {n : ℤ} (hn : 0 < n) : truncLong x < n ↔ x < n := by
  rw [truncLong]
  split
  · exact Int.floor_lt
  · have hx : x < 0 := by linarith
    have hceil : ⌈x⌉ ≤ 0 := Int.ceil_le.mpr (by exact_mod_cast hx.le)
    have hn' : (0 : ℚ) < n := by exact_mod_cast hn
    exact iff_of_true (by omega) (by linarith)

/-- A request of a non-negative number of nanoseconds is valid. -/
theorem Timespec.valid_ofNs {ns : ℤ} (h : 0 ≤ ns) : (Timespec.ofNs ns).valid = true := by
  have h₁ : 0 ≤ ns.tdiv 1000000000 := Int.tdiv_nonneg h (by decide)
  have h₂ : 0 ≤ ns.tmod 1000000000 := Int.tmod_nonneg _ h
  have h₃ : ns.tmod 1000000000 < 1000000000 := Int.tmod_lt_of_pos _ (by decide)
  exact decide_eq_true ⟨h₁, h₂, h₃⟩

/-- Splitting nanoseconds into seconds and nanoseconds loses nothing. -/
theorem Timespec.toSec_ofNs (ns : ℤ) : (Timespec.ofNs ns).toSec = ns * 0.000000001 := by
  have h : (1000000000 : ℤ) * ns.tdiv 1000000000 + ns.tmod 1000000000 = ns :=
    Int.mul_tdiv_add_tmod _ _
  have hq : (1000000000 : ℚ) * ((ns.tdiv 1000000000 : ℤ) : ℚ)
      + ((ns.tmod 1000000000 : ℤ) : ℚ) = ns := by exact_mod_cast h
  simp only [Timespec.toSec, Timespec.ofNs]
  linarith

/-- A longer excess wakes up later. -/
theorem nanosleep_mono (now : ℚ) (r : Timespec) {late late' : ℚ≥0} (h : late ≤ late') :
    nanosleep now r late ≤ nanosleep now r late' := by
  have h' : (late : ℚ) ≤ late' := h
  rw [nanosleep, nanosleep]
  split
  · linarith
  · exact le_rfl

/-- Sleeping never takes the clock back. -/
theorem le_nanosleep (now : ℚ) {ns : ℤ} (late : ℚ≥0) :
    now ≤ nanosleep now (Timespec.ofNs ns) late := by
  rw [nanosleep]
  split
  case isFalse => exact le_refl now
  case isTrue hv =>
    have ho : (0 : ℚ) ≤ late := late.2
    simp only [Timespec.valid, decide_eq_true_eq] at hv
    obtain ⟨h₁, h₂, -⟩ := hv
    have h₁' : (0 : ℚ) ≤ (Timespec.ofNs ns).tvSec := by exact_mod_cast h₁
    have h₂' : (0 : ℚ) ≤ (Timespec.ofNs ns).tvNsec := by exact_mod_cast h₂
    simp only [Timespec.toSec]
    linarith

/-- A valid request is slept out in full. -/
theorem add_le_nanosleep (now : ℚ) {ns : ℤ} (h : 0 ≤ ns) (late : ℚ≥0) :
    now + ns * 0.000000001 ≤ nanosleep now (Timespec.ofNs ns) late := by
  have ho : (0 : ℚ) ≤ late := late.2
  rw [nanosleep, if_pos (Timespec.valid_ofNs h), Timespec.toSec_ofNs]
  linarith

end Ooops
