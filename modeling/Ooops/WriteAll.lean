import Mathlib.Data.Int.Notation
import Ooops.Basis.Run

/-!
# Writing a Buffer to the End

`write_all` of the daemon calls `write` until the whole buffer has gone out. A call may write
less than it is asked for, nothing at all, or fail: an interruption is passed over, a full
file system ends the loop with a value of its own, and any other error ends it with what has
been written so far.

The results of `write` are the actions of a run. A result that the kernel does not give (more
bytes than it was asked for) and a result after the return have no successor state. A buffer is
the `count` bytes from `buf` on, and an object in memory is never so large that `nBytes` wraps.

* `writeStep_inv`: the pointer, the remaining count and the total move together.
* `writeAll_written`: what reached the file, and what the value returned says about it.
* `writeAll_progress`: a call of `write` that is not interrupted brings the end nearer.
-/

open Basis

namespace Ooops

/-- `OUT_OF_SPACE`. -/
def outOfSpace : ℤ := -111

/-- What a call of `write` returns: the number of bytes it has written, or `-1` with `errno`
set to `EINTR`, to `ENOSPC` or to something else. -/
inductive WriteResult
  | wrote (n : ℕ)
  | eintr
  | enospc
  | error
  deriving DecidableEq

/-- The variables of `write_all`: `pBuf` as an offset into the buffer, the bytes that have
reached the file, and the value returned, if any. -/
structure WriteState where
  pBuf : ℕ
  count : ℕ
  nBytes : ℕ
  file : List UInt8
  ret : Option ℤ
  deriving DecidableEq

/-- The first half of the loop condition: without anything left `write` is not called. -/
def WriteState.test (s : WriteState) : WriteState :=
  if s.count = 0 then { s with ret := some s.nBytes } else s

/-- `write_all` in front of its first call of `write`. -/
def writeAllStart (buf : List UInt8) : WriteState :=
  WriteState.test { pBuf := 0, count := buf.length, nBytes := 0, file := [], ret := none }

/-- The bytes of one call of `write` are in the file, and the variables move on. -/
def WriteState.advance (buf : List UInt8) (s : WriteState) (n : ℕ) : WriteState :=
  { s with
    pBuf := s.pBuf + n
    count := s.count - n
    nBytes := s.nBytes + n
    file := s.file ++ (buf.drop s.pBuf).take n }

/-- One round of the loop: a call of `write` and what follows it, up to the next call. -/
def writeStep (buf : List UInt8) (s : WriteState) (r : WriteResult) : Option WriteState :=
  if s.ret.isSome then none
  else
    match r with
    | .wrote n =>
        if n = 0 then some { s with ret := some s.nBytes }
        else if n ≤ s.count then some (s.advance buf n).test
        else none
    | .eintr => some s.test
    | .enospc => some { s with ret := some outOfSpace }
    | .error => some { s with ret := some s.nBytes }

section

variable {buf : List UInt8} {s s' : WriteState} {r : WriteResult} {rs : List WriteResult}

/-- What one round can do. -/
theorem writeStep_cases (h : writeStep buf s r = some s') :
    s.ret = none ∧
      ((r = .eintr ∧ s' = s.test) ∨
        (r = .enospc ∧ s' = { s with ret := some outOfSpace }) ∨
        ((r = .wrote 0 ∨ r = .error) ∧ s' = { s with ret := some s.nBytes }) ∨
        ∃ n, r = .wrote n ∧ 0 < n ∧ n ≤ s.count ∧ s' = (s.advance buf n).test) := by
  unfold writeStep at h
  split_ifs at h with hret
  refine ⟨by simpa using hret, ?_⟩
  cases r with
  | wrote n =>
      simp only at h
      split_ifs at h with h0 hle
      · exact .inr (.inr (.inl ⟨.inl (by rw [h0]), (Option.some.inj h).symm⟩))
      · exact .inr (.inr (.inr ⟨n, rfl, Nat.pos_of_ne_zero h0, hle, (Option.some.inj h).symm⟩))
  | eintr => exact .inl ⟨rfl, (Option.some.inj h).symm⟩
  | enospc => exact .inr (.inl ⟨rfl, (Option.some.inj h).symm⟩)
  | error => exact .inr (.inr (.inl ⟨.inr rfl, (Option.some.inj h).symm⟩))

/-- While `write_all` has not returned, every result that the kernel may give has a successor. -/
theorem exists_writeStep (hret : s.ret = none) (hr : ∀ n, r = .wrote n → n ≤ s.count) :
    ∃ s', writeStep buf s r = some s' := by
  simp only [writeStep, hret, Option.isSome_none, Bool.false_eq_true, if_false]
  cases r with
  | wrote n =>
      by_cases h0 : n = 0
      · exact ⟨_, if_pos h0⟩
      · exact ⟨_, (if_neg h0).trans (if_pos (hr n rfl))⟩
  | eintr => exact ⟨_, rfl⟩
  | enospc => exact ⟨_, rfl⟩
  | error => exact ⟨_, rfl⟩

/-- The pointer, the remaining count and the total fit the bytes in the file; the calls of
`write` that have been made, `rs`, fit the value returned. -/
structure WriteInv (buf : List UInt8) (rs : List WriteResult) (s : WriteState) : Prop where
  pBuf_eq : s.pBuf = s.nBytes
  count_eq : s.nBytes + s.count = buf.length
  file_eq : s.file = buf.take s.nBytes
  running : s.ret = none → s.count ≠ 0 ∧ ∀ r ∈ rs, r = .eintr ∨ ∃ n, r = .wrote (n + 1)
  returned : ∀ v, s.ret = some v →
    (v = outOfSpace ∧ .enospc ∈ rs ∧ .wrote 0 ∉ rs ∧ .error ∉ rs) ∨
      (v = s.nBytes ∧ .enospc ∉ rs ∧ (s.count = 0 ↔ .wrote 0 ∉ rs ∧ .error ∉ rs))

/-- Where the loop goes on, no call of `write` has ended it. -/
theorem not_mem_of_running (h : ∀ r ∈ rs, r = .eintr ∨ ∃ n, r = WriteResult.wrote (n + 1)) :
    WriteResult.enospc ∉ rs ∧ WriteResult.wrote 0 ∉ rs ∧ WriteResult.error ∉ rs :=
  ⟨fun hr => by simpa using h _ hr, fun hr => by simpa using h _ hr,
    fun hr => by simpa using h _ hr⟩

/-- The test of the loop keeps the invariant of a state in which it goes on or ends. -/
theorem writeInv_test (hret : s.ret = none) (hp : s.pBuf = s.nBytes)
    (hc : s.nBytes + s.count = buf.length) (hf : s.file = buf.take s.nBytes)
    (hrs : ∀ r ∈ rs, r = .eintr ∨ ∃ n, r = .wrote (n + 1)) : WriteInv buf rs s.test := by
  obtain ⟨hspace, hzero, herror⟩ := not_mem_of_running hrs
  rw [WriteState.test]
  split_ifs with h0
  · refine ⟨hp, hc, hf, nofun, fun v hv => .inr ?_⟩
    obtain rfl := Option.some.inj hv
    exact ⟨rfl, hspace, iff_of_true h0 ⟨hzero, herror⟩⟩
  · refine ⟨hp, hc, hf, fun _ => ⟨h0, hrs⟩, fun v hv => ?_⟩
    exact absurd (hret.symm.trans hv) nofun

theorem writeInv_start (buf : List UInt8) : WriteInv buf [] (writeAllStart buf) :=
  writeInv_test rfl rfl (Nat.zero_add _) rfl nofun

/-- The bytes of one call continue the prefix. -/
theorem take_append_take_drop (buf : List UInt8) (m n : ℕ) :
    buf.take m ++ (buf.drop m).take n = buf.take (m + n) :=
  List.take_add.symm

/-- One round keeps the invariant. -/
theorem writeStep_inv (hi : WriteInv buf rs s) (h : writeStep buf s r = some s') :
    WriteInv buf (rs ++ [r]) s' := by
  obtain ⟨hret, hcase⟩ := writeStep_cases h
  obtain ⟨hcount, hrs⟩ := hi.running hret
  obtain ⟨hspace, hzero, herror⟩ := not_mem_of_running hrs
  have hmore (hr : r = .eintr ∨ ∃ n, r = .wrote (n + 1)) :
      ∀ x ∈ rs ++ [r], x = .eintr ∨ ∃ n, x = .wrote (n + 1) := by
    intro x hx
    rcases List.mem_append.mp hx with hx | hx
    · exact hrs x hx
    · exact List.mem_singleton.mp hx ▸ hr
  rcases hcase with ⟨rfl, rfl⟩ | ⟨rfl, rfl⟩ | ⟨hr, rfl⟩ | ⟨n, rfl, hpos, hle, rfl⟩
  · exact writeInv_test hret hi.pBuf_eq hi.count_eq hi.file_eq (hmore (.inl rfl))
  · refine ⟨hi.pBuf_eq, hi.count_eq, hi.file_eq, nofun, fun v hv => .inl ?_⟩
    obtain rfl := Option.some.inj hv
    simp [hzero, herror]
  · refine ⟨hi.pBuf_eq, hi.count_eq, hi.file_eq, nofun, fun v hv => .inr ?_⟩
    obtain rfl := Option.some.inj hv
    rcases hr with rfl | rfl <;> simp [hspace, hcount]
  · have hc := hi.count_eq
    refine writeInv_test hret ?_ ?_ ?_ (hmore (.inr ⟨n - 1, by rw [Nat.sub_add_cancel hpos]⟩))
    · rw [WriteState.advance, hi.pBuf_eq]
    · simp only [WriteState.advance]
      omega
    · simp only [WriteState.advance]
      rw [hi.file_eq, hi.pBuf_eq, take_append_take_drop]

/-- The invariant holds after every sequence of results. -/
theorem writeInv_of_run (hrun : runSteps (writeStep buf) (writeAllStart buf) rs = some s) :
    WriteInv buf rs s :=
  history_of_runSteps (P := fun _ _ => True) (writeInv_start buf)
    (fun _ _ _ _ hi _ h => writeStep_inv hi h) rs s (along_of_forall (fun _ _ => trivial) _ _) hrun

/-- **What `write_all` has written.** After every sequence of results of `write` the file has got
the first bytes of the buffer, each once and in order. A value `v ≥ 0` that is returned is their
number, and it is the size of the buffer unless `write` returned `0` or failed; the value
`OUT_OF_SPACE` is returned exactly where `write` failed with `ENOSPC`. Until the return, any
result that the kernel may give is taken. -/
theorem writeAll_written (buf : List UInt8) (rs : List WriteResult) (s : WriteState)
    (hrun : runSteps (writeStep buf) (writeAllStart buf) rs = some s) :
    s.file <+: buf ∧ s.nBytes = s.file.length ∧
      (∀ v, s.ret = some v → 0 ≤ v → v = s.file.length ∧
        (v = buf.length ↔ .wrote 0 ∉ rs ∧ .error ∉ rs)) ∧
      (s.ret = some outOfSpace ↔ .enospc ∈ rs) ∧
      (s.ret = none → ∀ r, (∀ n, r = .wrote n → n ≤ s.count) →
        ∃ s', writeStep buf s r = some s') := by
  have hi := writeInv_of_run hrun
  have hc := hi.count_eq
  have hlen : s.file.length = s.nBytes := by
    rw [hi.file_eq, List.length_take]
    omega
  refine ⟨hi.file_eq ▸ List.take_prefix _ _, hlen.symm, fun v hv h0 => ?_,
    ⟨fun hv => ?_, fun hmem => ?_⟩, fun hret r hr => exists_writeStep hret hr⟩
  · rcases hi.returned v hv with ⟨rfl, -⟩ | ⟨rfl, -, hfull⟩
    · exact absurd h0 (by decide)
    · refine ⟨by rw [hlen], ?_⟩
      rw [← hfull]
      omega
  · rcases hi.returned _ hv with ⟨-, hmem, -⟩ | ⟨hv, -⟩
    · exact hmem
    · rw [outOfSpace] at hv
      omega
  · cases hret : s.ret with
    | none => exact absurd hmem (not_mem_of_running (hi.running hret).2).1
    | some v =>
        rcases hi.returned v hret with ⟨rfl, -⟩ | ⟨-, hno, -⟩
        · rfl
        · exact absurd hmem hno

/-- Three bytes, of which the second call of `write` takes two and the third none for want of
space. -/
theorem writeAll_written_enospc :
    runSteps (writeStep [7, 8, 9]) (writeAllStart [7, 8, 9]) [.eintr, .wrote 2, .enospc] =
        some ⟨2, 1, 2, [7, 8], some (-111)⟩ ∧
      ([7, 8] : List UInt8) <+: [7, 8, 9] :=
  have hrun : runSteps (writeStep [7, 8, 9]) (writeAllStart [7, 8, 9])
      [.eintr, .wrote 2, .enospc] = some ⟨2, 1, 2, [7, 8], some (-111)⟩ := by decide
  ⟨hrun, (writeAll_written _ _ _ hrun).1⟩

theorem WriteState.test_nBytes (s : WriteState) : s.test.nBytes = s.nBytes := by
  rw [WriteState.test]
  split_ifs <;> rfl

/-- Before the return every call of `write` that is not interrupted has written something. -/
theorem countP_le_nBytes (hrun : runSteps (writeStep buf) (writeAllStart buf) rs = some s)
    (hret : s.ret = none) : rs.countP (· ≠ .eintr) ≤ s.nBytes := by
  induction rs using List.reverseRecOn generalizing s with
  | nil => exact Nat.zero_le _
  | append_singleton rs r ih =>
      obtain ⟨m, hm, hstep⟩ := runSteps_concat_eq_some.mp hrun
      obtain ⟨hmret, hcase⟩ := writeStep_cases hstep
      have hrest := ih hm hmret
      rw [List.countP_append, List.countP_singleton]
      rcases hcase with ⟨rfl, rfl⟩ | ⟨rfl, rfl⟩ | ⟨-, rfl⟩ | ⟨n, rfl, hpos, hle, rfl⟩
      · simpa [WriteState.test_nBytes] using hrest
      · exact absurd hret nofun
      · exact absurd hret nofun
      · rw [WriteState.test_nBytes, WriteState.advance, if_pos (by simp)]
        dsimp only
        omega

/-- The calls of `write` that are not interrupted are fewer than the buffer has bytes as long as
there is no return, so `write_all` does return unless it is interrupted for ever. -/
theorem writeAll_progress (hrun : runSteps (writeStep buf) (writeAllStart buf) rs = some s)
    (hret : s.ret = none) : rs.countP (· ≠ .eintr) < buf.length := by
  have hi := writeInv_of_run hrun
  have h0 := (hi.running hret).1
  have hc := hi.count_eq
  have hle := countP_le_nBytes hrun hret
  omega

end

end Ooops
