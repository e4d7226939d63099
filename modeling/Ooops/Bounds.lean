import Ooops.Rounds

/-!
# The Bounds of the Daemon

The daemon trusts what it reads. It stores a NUL behind the greeting wherever the read
ended, so a greeting of 128 bytes or a failed `read` puts it outside the buffer, and it
copies a packet to the row of the rank the packet claims. A client whose host is not in the
list is answered with the rank `-1` and uses it (`unlisted_client_faults`).

* `Event.Safe` is what a read has to be like.
* `run_isSome_iff_safe`: a run stays inside the buffer and the rows, and takes no remainder
  modulo `0`, exactly if every read is so.
-/

open Basis

namespace Ooops

/-- A greeting of less than 128 bytes, and no packet of a rank that is not `0` or that of a
row. -/
def Event.Safe (cfg : Setup) : Event → Prop
  | .accept _ .error _ => False
  | .accept _ (.bytes buf _) _ => buf.length < 128
  | .readable _ r => ∀ p, acceptedData r = some p → 1 ≤ p.rank ∧ p.rank < cfg.gsize
  | .alarm => True
  | .localWrite _ => True

section Bounds

variable {cfg : Setup}

/-- A read of `accept_client` has a successor if its NUL is inside the buffer. -/
theorem acceptClient_isSome_iff (s : Server cfg.gsize) (fd : ℕ) (r : ReadResult 128)
    (registered : Bool) :
    (acceptClient cfg s fd r registered).isSome ↔
      (Event.accept fd r registered).Safe cfg := by
  cases r with
  | error => simp [acceptClient, Event.Safe]
  | bytes buf hbuf =>
      rw [acceptClient, Event.Safe]
      by_cases hlen : buf.length < 128
      · simp only [hlen, if_true, Option.isSome_some]
      · simp only [hlen, if_false, Option.isSome_none, Bool.false_eq_true]

/-- A read of `drain_client` has a successor if the row of its packet is one of the rows. -/
theorem drainClient_isSome_iff (s : Server cfg.gsize) (fd : ℕ) (r : ReadResult 1024) :
    (drainClient cfg s fd r).isSome ↔ (Event.readable fd r).Safe cfg := by
  cases hdata : acceptedData r with
  | none =>
      obtain ⟨fds, hdrain⟩ := drainClient_of_none hdata s fd
      simp only [hdrain, Option.isSome_some, Event.Safe, hdata, reduceCtorEq, false_implies,
        implies_true]
  | some p =>
      have hne : p.rank ≠ 0 := Event.data_rank_ne (e := .readable fd r) hdata
      simp only [drainClient_of_some hdata, Event.Safe, hdata, Option.some.injEq,
        forall_eq']
      rw [Option.isSome_iff_exists]
      constructor
      · rintro ⟨s', hs'⟩
        obtain ⟨-, k, hk, -⟩ := takeData_eq_some_iff.mp hs'
        omega
      · rintro ⟨hge, hlt⟩
        exact ⟨_, takeData_eq_some_iff.mpr
          ⟨by omega, ⟨p.rank.toNat, by omega⟩, by simp; omega, rfl⟩⟩

/-- An event has a successor exactly if its read is safe. -/
theorem serverStep_isSome_iff (s : Server cfg.gsize) (e : Event) :
    (serverStep cfg s e).isSome ↔ e.Safe cfg := by
  cases e with
  | accept fd r registered =>
      rw [serverStep, Option.isSome_map, acceptClient_isSome_iff]
  | readable fd r => exact drainClient_isSome_iff s fd r
  | alarm => exact iff_of_true rfl trivial
  | localWrite counter => exact iff_of_true rfl trivial

/-- **Bounds.** A run of the daemon stays inside its buffer and its rows, and takes no
remainder modulo `0`, exactly if all its reads are safe. -/
theorem run_isSome_iff_safe (s : Server cfg.gsize) (es : List Event) :
    (runSteps (serverStep cfg) s es).isSome ↔ ∀ e ∈ es, e.Safe cfg := by
  induction es generalizing s with
  | nil => simp
  | cons e es ih =>
      rw [List.forall_mem_cons, ← serverStep_isSome_iff s e, runSteps_cons]
      cases serverStep cfg s e with
      | none => simp
      | some s' =>
          rw [Option.bind_some, ih s']
          exact (and_iff_right rfl).symm

end Bounds

/-- A client on a host that is not in the list greets, is answered with `-1`, and sends its
first packet with this rank. -/
theorem unlisted_client_faults :
    (acceptClient sampleSetup (Server.start sampleSetup (fun _ _ => 9) fun _ => 0) 5
        (readWaiting 128 (szTagNodeName ++ bytesOf "n9")) true).map Prod.snd = some (-1) ∧
      runSteps (serverStep sampleSetup)
        (Server.start sampleSetup (fun _ _ => 9) fun _ => 0)
        [.accept 5 (readWaiting 128 (szTagNodeName ++ bytesOf "n9")) true,
          packetEvent 5 (-1) fun _ => 7] = none := by
  have hrun : (runSteps (serverStep sampleSetup)
      (Server.start sampleSetup (fun _ _ => 9) fun _ => 0)
      [.accept 5 (readWaiting 128 (szTagNodeName ++ bytesOf "n9")) true,
        packetEvent 5 (-1) fun _ => 7]).isSome = false := by
    decide +kernel
  exact ⟨by decide +kernel, by simpa using hrun⟩

end Ooops
