import Mathlib.Data.List.Flatten
import Ooops.Rounds

/-!
# Framing

A client writes its records one behind the other into a byte stream, and a `read` returns
whatever part of the stream has arrived. The daemon keeps nothing from one read to the
next: a read is taken for a record if it has the length of one, and is dropped otherwise.

* `Cuts` says that a stream is cut into reads.
* `framed_iff`: after all reads the row of the client holds its last record, and all its
  records are counted, exactly if every read was one record long (and the count is still in
  the range of an `int`).
* `merged_records_lost`: two records that arrive together are both lost.
-/

open Basis

namespace Ooops

/-- What the client at a rank writes when its counters are one after the other those of
`cs`. -/
def clientStream (rank : ℤ) (cs : List Counters) : List UInt8 :=
  (cs.map fun counter => (OoopsData.ofClient rank counter).toBytes).flatten

/-- The stream is cut into the reads `chunks`, none of them empty. -/
structure Cuts (stream : List UInt8) (chunks : List (List UInt8)) : Prop where
  flatten_eq : chunks.flatten = stream
  ne_nil : ∀ chunk ∈ chunks, chunk ≠ []
  length_le : ∀ chunk ∈ chunks, chunk.length ≤ 1024

/-- The reads of a connection. -/
def readEvents (fd : ℕ) (chunks : List (List UInt8)) : List Event :=
  chunks.map fun chunk => .readable fd (readWaiting 1024 chunk)

/-- The row `k` holds the last record, and all records have been counted. -/
def Framed {gsize : ℕ} (s s' : Server gsize) (k : Fin gsize) (cs : List Counters) : Prop :=
  (∀ counter, cs.getLast? = some counter → s'.oopsDataList k = counter) ∧
    s'.nDataCount = s.nDataCount + cs.length

section Framing

variable {cfg : Setup}

/-- The records of a client are of one length. -/
theorem length_clientStream (rank : ℤ) (cs : List Counters) :
    (clientStream rank cs).length = sizeofOoopsData * cs.length := by
  induction cs with
  | nil => rfl
  | cons counter cs ih =>
      rw [clientStream, List.map_cons, List.flatten_cons, List.length_append,
        OoopsData.length_toBytes, List.length_cons, Nat.mul_add, Nat.mul_one, Nat.add_comm]
      exact congrArg (· + sizeofOoopsData) ih

/-- Reads of the length of a record are the records. -/
theorem Cuts.eq_of_length {rank : ℤ} {cs : List Counters} {chunks : List (List UInt8)}
    (h : Cuts (clientStream rank cs) chunks)
    (hlen : ∀ chunk ∈ chunks, chunk.length = sizeofOoopsData) :
    chunks = cs.map fun counter => (OoopsData.ofClient rank counter).toBytes := by
  have hall : chunks.map List.length = List.replicate chunks.length sizeofOoopsData :=
    List.eq_replicate_iff.mpr ⟨List.length_map .., fun n hn => by
      obtain ⟨chunk, hchunk, rfl⟩ := List.mem_map.mp hn
      exact hlen chunk hchunk⟩
  have hcount : chunks.length = cs.length := by
    have hsum := congrArg List.length h.flatten_eq
    rw [List.length_flatten, hall, List.sum_replicate, length_clientStream, smul_eq_mul,
      Nat.mul_comm] at hsum
    exact Nat.eq_of_mul_eq_mul_left (by decide) hsum
  refine List.eq_iff_flatten_eq.mpr ⟨h.flatten_eq, ?_⟩
  rw [hall, hcount, List.map_map]
  refine (List.eq_replicate_iff.mpr ⟨List.length_map .., fun n hn => ?_⟩).symm
  obtain ⟨counter, -, rfl⟩ := List.mem_map.mp hn
  exact OoopsData.length_toBytes _

/-- A read that is taken has the length of a record. -/
theorem length_of_acceptedData {chunk : List UInt8} {p : OoopsData} (hle : chunk.length ≤ 1024)
    (h : acceptedData (readWaiting 1024 chunk) = some p) :
    chunk.length = sizeofOoopsData := by
  obtain ⟨hp, -⟩ := Option.filter_eq_some_iff.mp h
  rw [List.take_of_length_le hle, receivedData] at hp
  split_ifs at hp with hrecord
  exact hrecord.1

/-- No more packets are taken than the bytes read have room for, and with so many every
read was one record long. -/
theorem length_acceptedRanks_readEvents (fd : ℕ) {chunks : List (List UInt8)}
    (hne : ∀ chunk ∈ chunks, chunk ≠ []) (hle : ∀ chunk ∈ chunks, chunk.length ≤ 1024) :
    sizeofOoopsData * (acceptedRanks (readEvents fd chunks)).length ≤ chunks.flatten.length ∧
      (chunks.flatten.length ≤ sizeofOoopsData * (acceptedRanks (readEvents fd chunks)).length →
        ∀ chunk ∈ chunks, chunk.length = sizeofOoopsData) := by
  induction chunks with
  | nil => exact ⟨Nat.le_refl 0, fun _ _ h => absurd h List.not_mem_nil⟩
  | cons chunk chunks ih =>
      obtain ⟨hne₁, hne⟩ := List.forall_mem_cons.mp hne
      obtain ⟨hle₁, hle⟩ := List.forall_mem_cons.mp hle
      obtain ⟨hroom, hfull⟩ := ih hne hle
      have hpos : 0 < chunk.length := List.length_pos_iff.mpr hne₁
      have hsplit : acceptedRanks (readEvents fd (chunk :: chunks)) =
          acceptedRanks [Event.readable fd (readWaiting 1024 chunk)] ++
            acceptedRanks (readEvents fd chunks) := acceptedRanks_append [_] _
      rw [List.flatten_cons, List.length_append, hsplit, List.length_append]
      cases hdata : (Event.readable fd (readWaiting 1024 chunk)).data with
      | none =>
          rw [acceptedRanks_of_none hdata, List.length_nil, Nat.zero_add]
          exact ⟨by omega, fun h => absurd h (by omega)⟩
      | some p =>
          have hlen := length_of_acceptedData hle₁ hdata
          rw [acceptedRanks_of_some hdata, List.length_singleton, Nat.mul_add, Nat.mul_one, hlen]
          refine ⟨by omega, fun h => List.forall_mem_cons.mpr ⟨hlen, hfull (by omega)⟩⟩

/-- Records that are read one by one are stored and counted one by one. -/
theorem runSteps_records {k : Fin cfg.gsize} (hk : k.val ≠ 0) (fd : ℕ) (cs : List Counters)
    {s : Server cfg.gsize} {n : ℤ} (hn : s.nDataCount = wrapInt32 n) :
    ∃ s', runSteps (serverStep cfg) s (readEvents fd
        (cs.map fun counter => (OoopsData.ofClient k.val counter).toBytes)) = some s' ∧
      s'.oopsDataList k = cs.getLast?.getD (s.oopsDataList k) ∧
      s'.nDataCount = wrapInt32 (n + cs.length) := by
  induction cs generalizing s n with
  | nil => exact ⟨s, rfl, rfl, by rw [hn, List.length_nil, Nat.cast_zero, add_zero]⟩
  | cons counter cs ih =>
      have hdata := acceptedData_ofClient k.isLt counter
      rw [if_neg hk] at hdata
      have hstep : serverStep cfg s (.readable fd
          (readWaiting 1024 (OoopsData.ofClient k.val counter).toBytes)) =
            some (afterData s k counter) :=
        (drainClient_of_some hdata).trans
          (takeData_eq_some_iff.mpr ⟨by omega, k, rfl, rfl⟩)
      have hcount : (afterData s k counter).nDataCount = wrapInt32 (n + 1) := by
        rw [afterData_nDataCount, hn, wrapInt32_add_one]
      obtain ⟨s', hrun, hrow, hn'⟩ := ih hcount
      refine ⟨s', ?_, ?_, ?_⟩
      · rw [readEvents, List.map_cons, List.map_cons, runSteps_cons, hstep, Option.bind_some]
        exact hrun
      · rw [hrow, afterData_oopsDataList hk, if_pos rfl, List.getLast?_cons, Option.getD_some]
      · rw [hn', List.length_cons, Nat.cast_succ, add_assoc, add_comm (1 : ℤ)]

/-- **Framing.** After all reads of a stream the last record is in place and all are
counted, exactly if each read was one record long and the count still fits an `int`. -/
theorem framed_iff {rows : Fin cfg.gsize → Counters} {localData : Counters}
    {es : List Event} {s : Server cfg.gsize}
    (hrun : runSteps (serverStep cfg) (Server.start cfg rows localData) es = some s)
    {k : Fin cfg.gsize} (hk : k.val ≠ 0) {cs : List Counters} {chunks : List (List UInt8)}
    (hcuts : Cuts (clientStream k.val cs) chunks) (fd : ℕ) :
    (∃ s', runSteps (serverStep cfg) s (readEvents fd chunks) = some s' ∧ Framed s s' k cs) ↔
      (∀ chunk ∈ chunks, chunk.length = sizeofOoopsData) ∧
        s.nDataCount + cs.length < 2 ^ 31 := by
  have hg : 2 ≤ cfg.gsize := by omega
  have hcount := nDataCount_of_runSteps hg hrun
  have hbounds := wrapInt32_bounds (acceptedRanks es).length
  rw [← hcount] at hbounds
  constructor
  · rintro ⟨s', hrun', -, hgrown⟩
    obtain ⟨hroom, hfull⟩ :=
      length_acceptedRanks_readEvents fd hcuts.ne_nil hcuts.length_le
    rw [hcuts.flatten_eq, length_clientStream] at hroom hfull
    have hle := Nat.le_of_mul_le_mul_left hroom (by decide)
    have hcount' := nDataCount_of_runSteps hg
      ((runSteps_append _ es _).trans (by rw [hrun, Option.bind_some]; exact hrun'))
    rw [acceptedRanks_append, List.length_append, Nat.cast_add, ← wrapInt32_add, ← hcount]
      at hcount'
    have hbounds' := wrapInt32_bounds
      (s.nDataCount + (acceptedRanks (readEvents fd chunks)).length)
    rw [← hcount'] at hbounds'
    rw [wrapInt32_eq_self (by omega) (by omega)] at hcount'
    have heq : cs.length = (acceptedRanks (readEvents fd chunks)).length := by omega
    exact ⟨hfull (by rw [heq]), by omega⟩
  · rintro ⟨hlen, hlt⟩
    obtain ⟨s', hrun', hrow, hn'⟩ := runSteps_records hk fd cs hcount
    rw [← hcuts.eq_of_length hlen] at hrun'
    rw [← wrapInt32_add, ← hcount, wrapInt32_eq_self (by omega) hlt] at hn'
    refine ⟨s', hrun', fun counter hlast => ?_, hn'⟩
    rw [hrow, hlast, Option.getD_some]

end Framing

section Sample

/-- The daemon of the sample before its first event. -/
def sampleStart : Server sampleSetup.gsize :=
  Server.start sampleSetup (fun _ _ => 9) fun _ => 0

/-- The rank of `n1`. -/
def sampleRank : Fin sampleSetup.gsize := ⟨1, by decide⟩

/-- Two records that arrive in two reads are both counted, and the second one is stored. -/
theorem framed_iff_records :
    ∃ s', runSteps (serverStep sampleSetup) sampleStart
        (readEvents 5 [clientStream 1 [fun _ => 7], clientStream 1 [fun _ => 8]]) = some s' ∧
      Framed sampleStart s' sampleRank [fun _ => 7, fun _ => 8] := by
  have hlen : ∀ chunk ∈ [clientStream 1 [fun _ => 7], clientStream 1 [fun _ => 8]],
      chunk.length = sizeofOoopsData := by
    rw [List.forall_mem_cons, List.forall_mem_singleton]
    exact ⟨length_clientStream .., length_clientStream ..⟩
  have hcuts : Cuts (clientStream sampleRank.val [fun _ => 7, fun _ => 8])
      [clientStream 1 [fun _ => 7], clientStream 1 [fun _ => 8]] := by
    refine ⟨?_, fun chunk hchunk hnil => ?_, fun chunk hchunk => ?_⟩
    · simp only [clientStream, sampleRank, List.map_cons, List.map_nil, List.flatten_cons,
        List.flatten_nil, List.append_nil, Nat.cast_one]
    · have h := hlen chunk hchunk
      rw [hnil, List.length_nil, sizeofOoopsData] at h
      omega
    · rw [hlen chunk hchunk, sizeofOoopsData]
      omega
  have hrun : runSteps (serverStep sampleSetup)
      (Server.start sampleSetup (fun _ _ => 9) fun _ => 0) [] = some sampleStart := rfl
  have hone : sampleRank.val ≠ 0 := by decide
  exact (framed_iff hrun hone hcuts 5).mpr ⟨hlen, by decide⟩

/-- Two records that arrive together are one read of 528 bytes, and are dropped. -/
theorem merged_records_lost :
    Cuts (clientStream 1 [fun _ => 7, fun _ => 8])
        [clientStream 1 [fun _ => 7, fun _ => 8]] ∧
      ¬∃ s', runSteps (serverStep sampleSetup) sampleStart
          (readEvents 5 [clientStream 1 [fun _ => 7, fun _ => 8]]) = some s' ∧
        Framed sampleStart s' sampleRank [fun _ => 7, fun _ => 8] := by
  have hlen : (clientStream 1 [fun _ => 7, fun _ => 8]).length = 528 :=
    length_clientStream ..
  refine ⟨⟨List.append_nil _, fun chunk hchunk hnil => ?_, fun chunk hchunk => ?_⟩, ?_⟩
  · rw [← List.mem_singleton.mp hchunk, hnil, List.length_nil] at hlen
    omega
  · rw [List.mem_singleton.mp hchunk]
    omega
  · rintro ⟨s', hrun, -, hgrown⟩
    have hcount : (runSteps (serverStep sampleSetup) sampleStart
        (readEvents 5 [clientStream 1 [fun _ => 7, fun _ => 8]])).map Server.nDataCount =
          some 0 := by
      decide +kernel
    rw [hrun, Option.map_some, Option.some.injEq] at hcount
    have hzero : sampleStart.nDataCount = 0 := rfl
    rw [hcount, hzero, List.length_cons, List.length_singleton] at hgrown
    omega

end Sample

end Ooops
