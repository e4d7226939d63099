import Mathlib.Data.List.Induction
import Mathlib.Data.List.ReduceOption
import Ooops.XXHash

/-!
# Hashing a Key in Pieces

The streaming interface of the hash function: `reset`, any number of `update`s with pieces of
the key, `digest`. The state keeps the bytes of a stripe that is not full yet in a buffer,
with whatever an earlier stripe has left behind it.

* `xxh64_stream` and `xxh32_stream`: however a key is cut into pieces, the digest is the hash
  of the whole key; a null pointer among the pieces is refused and changes nothing.
* `HashState.update_refines`: an update is a `Buffered.feed` of the piece, and writes inside the
  buffer only.
-/

open Basis

namespace Ooops

/-- `XXH_errorcode`. -/
inductive XxhErrorcode
  | ok
  | error
  deriving DecidableEq

variable {w : ℕ}

/-- What the states of the two variants share: the accumulators, the buffer and the number of
bytes held back in it. -/
structure HashState (w : ℕ) where
  v : Lanes w
  mem : Memory
  memsize : ℕ

namespace HashState

/-- "Some data left from previous update": the stripe held back is filled up from the piece and
consumed. The state then, and the rest of the piece. -/
def complete (n : ℕ) (stripe : Lanes w → List UInt8 → Lanes w) (s : HashState w)
    (input : List UInt8) : HashState w × List UInt8 :=
  if s.memsize ≠ 0 then
    let mem := s.mem.write s.memsize (input.take (n - s.memsize))
    (⟨stripe s.v (mem.read 0 n), mem, 0⟩, input.drop (n - s.memsize))
  else (s, input)

/-- The whole stripes of the piece are consumed, and the rest is held back. -/
def stripes (n : ℕ) (stripe : Lanes w → List UInt8 → Lanes w) (s : HashState w)
    (p : List UInt8) : HashState w :=
  let (v, p) := if n ≤ p.length then blockLoop n stripe p.length s.v p else (s.v, p)
  if 0 < p.length then ⟨v, s.mem.write 0 p, p.length⟩ else { s with v := v }

/-- What the updates of the variants share, for stripes of `n` bytes. -/
def update (n : ℕ) (stripe : Lanes w → List UInt8 → Lanes w) (s : HashState w)
    (input : List UInt8) : HashState w :=
  if s.memsize + input.length < n then
    { s with mem := s.mem.write s.memsize input, memsize := s.memsize + input.length }
  else
    let (s, p) := complete n stripe s input
    stripes n stripe s p

end HashState

/-- `XXH32_state_s`. -/
structure Xxh32State where
  totalLen32 : BitVec 32
  largeLen : Bool
  rest : HashState 32

/-- `XXH64_state_s`. -/
structure Xxh64State where
  totalLen : BitVec 64
  rest : HashState 64

/-- `XXH32_reset`. -/
def xxh32Reset (seed : BitVec 32) : Xxh32State where
  totalLen32 := 0
  largeLen := false
  rest := ⟨Lanes.start prime32_1 prime32_2 seed, fun _ => 0, 0⟩

/-- `XXH64_reset`. -/
def xxh64Reset (seed : BitVec 64) : Xxh64State where
  totalLen := 0
  rest := ⟨Lanes.start prime64_1 prime64_2 seed, fun _ => 0, 0⟩

/-- `XXH32_update`. -/
def xxh32Update (e : Endian) (s : Xxh32State) : Option (List UInt8) → Xxh32State × XxhErrorcode
  | none => (s, .error)
  | some input =>
    let totalLen32 := s.totalLen32 + BitVec.ofNat 32 input.length
    (⟨totalLen32, s.largeLen || (decide (16 ≤ input.length) || decide (16 ≤ totalLen32.toNat)),
      s.rest.update 16 (Lanes.stripe xxh32Round e) input⟩, .ok)

/-- `XXH64_update`. -/
def xxh64Update (e : Endian) (s : Xxh64State) : Option (List UInt8) → Xxh64State × XxhErrorcode
  | none => (s, .error)
  | some input =>
    (⟨s.totalLen + BitVec.ofNat 64 input.length,
      s.rest.update 32 (Lanes.stripe xxh64Round e) input⟩, .ok)

/-- `XXH32_digest`. -/
def xxh32Digest (e : Endian) (s : Xxh32State) : BitVec 32 :=
  let h := if s.largeLen then s.rest.v.sum else s.rest.v.v3 + prime32_5
  xxh32Finalize e (h + s.totalLen32) (s.rest.mem.read 0 16) s.rest.memsize

/-- `XXH64_digest`. -/
def xxh64Digest (e : Endian) (s : Xxh64State) : BitVec 64 :=
  let h := if 32 ≤ s.totalLen.toNat then s.rest.v.merge else s.rest.v.v3 + prime64_5
  xxh64Finalize e (h + s.totalLen) (s.rest.mem.read 0 32) s.totalLen.toNat

/-! ### An update is a feed -/

namespace HashState

/-- What a state holds: the accumulators and the bytes held back. -/
def buffered (s : HashState w) : Buffered (Lanes w) UInt8 := ⟨s.v, s.mem.read 0 s.memsize⟩

theorem read_write_append (m : Memory) (k : ℕ) (bs : List UInt8) :
    (m.write k bs).read 0 (k + bs.length) = m.read 0 k ++ bs := by
  rw [Memory.read_add, Nat.zero_add, Memory.read_write_self,
    Memory.read_write_of_disjoint (.inl (by omega))]

variable {n : ℕ} {stripe : Lanes w → List UInt8 → Lanes w}

/-- Filling up the stripe that was held back. -/
theorem complete_spec {s : HashState w} {input : List UInt8} (hs : s.memsize < n)
    (hfull : n ≤ s.memsize + input.length) :
    (complete n stripe s input).1.memsize = 0 ∧
      Buffered.feed n stripe (complete n stripe s input).1.buffered
        (complete n stripe s input).2 = Buffered.feed n stripe s.buffered input ∧
      ∀ x, n ≤ x → (complete n stripe s input).1.mem x = s.mem x := by
  by_cases hzero : s.memsize = 0
  · have heq : complete n stripe s input = (s, input) := if_neg (not_not.mpr hzero)
    rw [heq]
    exact ⟨hzero, rfl, fun x _ => rfl⟩
  · have htake : (input.take (n - s.memsize)).length = n - s.memsize :=
      List.length_take_of_le (by omega)
    have hread : (s.mem.write s.memsize (input.take (n - s.memsize))).read 0 n =
        s.mem.read 0 s.memsize ++ input.take (n - s.memsize) := by
      rw [← read_write_append, htake, show s.memsize + (n - s.memsize) = n by omega]
    have heq : complete n stripe s input =
        (⟨stripe s.v (s.mem.read 0 s.memsize ++ input.take (n - s.memsize)),
          s.mem.write s.memsize (input.take (n - s.memsize)), 0⟩,
          input.drop (n - s.memsize)) := by
      simp only [complete, if_pos hzero, hread]
    rw [heq]
    refine ⟨rfl, ?_, fun x hx => Memory.write_of_outside (.inr (by rw [htake]; omega))⟩
    have hfeed : Buffered.feed n stripe s.buffered (input.take (n - s.memsize)) =
        ⟨stripe s.v (s.mem.read 0 s.memsize ++ input.take (n - s.memsize)), []⟩ :=
      Buffered.feed_of_eq (by rwa [Memory.length_read])
        (by rw [Memory.length_read, htake]; omega)
    conv => rhs; rw [← List.take_append_drop (n - s.memsize) input]
    rw [Buffered.feed_append, hfeed]
    rfl

/-- Going through the whole stripes and holding back the rest. -/
theorem stripes_spec {s : HashState w} (p : List UInt8) (hn : 0 < n) (hs : s.memsize = 0) :
    (stripes n stripe s p).buffered = Buffered.feed n stripe s.buffered p ∧
      (stripes n stripe s p).memsize < n ∧
      ∀ x, n ≤ x → (stripes n stripe s p).mem x = s.mem x := by
  set r := if n ≤ p.length then blockLoop n stripe p.length s.v p else (s.v, p) with hr
  have hstart : s.buffered = ⟨s.v, []⟩ := by rw [buffered, hs]; rfl
  have hfeed : Buffered.feed n stripe s.buffered p = ⟨r.1, r.2⟩ := by
    rw [hstart, hr]
    split
    · rename_i hlong
      exact blockLoop_eq_feed hn hlong le_rfl
    · rename_i hshort
      exact Buffered.feed_of_lt (by rw [List.length_nil]; omega)
  have hlt : r.2.length < n := by
    have hheld : (Buffered.feed n stripe s.buffered p).held.length =
        (s.buffered.held.length + p.length) % n :=
      Buffered.length_held_feed (by rw [hstart]; exact hn)
    rw [hfeed] at hheld
    exact hheld ▸ Nat.mod_lt _ hn
  have heq : stripes n stripe s p =
      if 0 < r.2.length then ⟨r.1, s.mem.write 0 r.2, r.2.length⟩ else { s with v := r.1 } := rfl
  rw [heq, hfeed]
  split
  · refine ⟨?_, hlt, fun x hx => ?_⟩
    · rw [buffered, Memory.read_write_self]
    · have hout : 0 + r.2.length ≤ x := by omega
      exact Memory.write_of_outside (.inr hout)
  · rename_i hnone
    have hnil : r.2 = [] := List.eq_nil_of_length_eq_zero (by omega)
    refine ⟨?_, hs.trans_lt hn, fun x _ => rfl⟩
    rw [buffered, hs, hnil]
    rfl

/-- An update feeds the piece, and writes inside the buffer only. -/
theorem update_refines {s : HashState w} (input : List UInt8) (hs : s.memsize < n) :
    (s.update n stripe input).buffered = Buffered.feed n stripe s.buffered input ∧
      (s.update n stripe input).memsize < n ∧
      ∀ x, n ≤ x → (s.update n stripe input).mem x = s.mem x := by
  rw [update]
  split
  · rename_i hshort
    refine ⟨?_, hshort, fun x hx => ?_⟩
    · rw [buffered, read_write_append, buffered,
        Buffered.feed_of_lt (by rwa [Memory.length_read])]
    · exact Memory.write_of_outside (.inr (by omega))
  · rename_i hfull
    obtain ⟨hzero, hfeed, hmem⟩ := @complete_spec w n stripe s input hs (not_lt.mp hfull)
    obtain ⟨hrest, hlt, hmem'⟩ := @stripes_spec w n stripe _
      (complete n stripe s input).2 (Nat.zero_lt_of_lt hs) hzero
    exact ⟨hrest.trans hfeed, hlt, fun x hx => (hmem' x hx).trans (hmem x hx)⟩

end HashState

/-! ### The last stage -/

/-- The steps read their own bytes only. -/
theorem processAll_append {ι : Type} {size : ι → ℕ} {step : ι → BitVec w → List UInt8 → BitVec w}
    {us : List ι} {h : BitVec w} {p : List UInt8} (hp : (us.map size).sum ≤ p.length)
    (q : List UInt8) : processAll size step us h (p ++ q) = processAll size step us h p := by
  induction us generalizing h p with
  | nil => rfl
  | cons u us ih =>
      rw [List.map_cons, List.sum_cons] at hp
      rw [processAll, processAll, List.take_append_of_le_length (by omega),
        List.drop_append_of_le_length (by omega), ih (by rw [List.length_drop]; omega)]

/-- The steps of a case take all bytes. -/
theorem sum_size_switch32 : ∀ n < 16, ((switch32 n).map Process32.size).sum = n := by decide

theorem sum_size_switch64 : ∀ n < 32, ((switch64 n).map Process64.size).sum = n := by decide

theorem xxh32Finalize_append {e : Endian} {h : BitVec 32} {p : List UInt8} {len : ℕ}
    (hp : len % 16 ≤ p.length) (q : List UInt8) :
    xxh32Finalize e h (p ++ q) len = xxh32Finalize e h p len := by
  rw [xxh32Finalize, xxh32Finalize,
    processAll_append (by rwa [sum_size_switch32 _ (Nat.mod_lt _ (by norm_num))])]

theorem xxh64Finalize_append {e : Endian} {h : BitVec 64} {p : List UInt8} {len : ℕ}
    (hp : len % 32 ≤ p.length) (q : List UInt8) :
    xxh64Finalize e h (p ++ q) len = xxh64Finalize e h p len := by
  rw [xxh64Finalize, xxh64Finalize,
    processAll_append (by rwa [sum_size_switch64 _ (Nat.mod_lt _ (by norm_num))])]

/-! ### One key, any pieces -/

/-- The stripes of a key from a seed. -/
def feed32 (e : Endian) (seed : BitVec 32) (input : List UInt8) : Buffered (Lanes 32) UInt8 :=
  Buffered.feed 16 (Lanes.stripe xxh32Round e) ⟨Lanes.start prime32_1 prime32_2 seed, []⟩ input

/-- The stripes of a key from a seed. -/
def feed64 (e : Endian) (seed : BitVec 64) (input : List UInt8) : Buffered (Lanes 64) UInt8 :=
  Buffered.feed 32 (Lanes.stripe xxh64Round e) ⟨Lanes.start prime64_1 prime64_2 seed, []⟩ input

/-- The hash of a key, from its stripes. -/
theorem xxh32_eq (e : Endian) (input : List UInt8) (seed : BitVec 32) :
    xxh32 e input seed = xxh32Finalize e
      ((if 16 ≤ input.length then (feed32 e seed input).acc.sum else seed + prime32_5) +
        BitVec.ofNat 32 input.length) (feed32 e seed input).held (input.length % 16) := by
  by_cases hlong : 16 ≤ input.length
  · simp only [xxh32, if_pos hlong, feed32, blockLoop_eq_feed (by norm_num : 0 < 16) hlong le_rfl]
  · have hfeed : feed32 e seed input = ⟨Lanes.start prime32_1 prime32_2 seed, input⟩ :=
      Buffered.feed_of_lt (by rw [List.length_nil]; omega)
    simp only [xxh32, if_neg hlong, hfeed]

theorem xxh64_eq (e : Endian) (input : List UInt8) (seed : BitVec 64) :
    xxh64 e input seed = xxh64Finalize e
      ((if 32 ≤ input.length then (feed64 e seed input).acc.merge else seed + prime64_5) +
        BitVec.ofNat 64 input.length) (feed64 e seed input).held input.length := by
  by_cases hlong : 32 ≤ input.length
  · simp only [xxh64, if_pos hlong, feed64, blockLoop_eq_feed (by norm_num : 0 < 32) hlong le_rfl]
  · have hfeed : feed64 e seed input = ⟨Lanes.start prime64_1 prime64_2 seed, input⟩ :=
      Buffered.feed_of_lt (by rw [List.length_nil]; omega)
    simp only [xxh64, if_neg hlong, hfeed]

/-- The state after the pieces of a key, the 32-bit variant. -/
structure Xxh32State.Holds (e : Endian) (seed : BitVec 32) (input : List UInt8)
    (s : Xxh32State) : Prop where
  totalLen32 : s.totalLen32 = BitVec.ofNat 32 input.length
  largeLen : s.largeLen = decide (16 ≤ input.length)
  memsize : s.rest.memsize < 16
  buffered : s.rest.buffered = feed32 e seed input

/-- The state after the pieces of a key, the 64-bit variant. -/
structure Xxh64State.Holds (e : Endian) (seed : BitVec 64) (input : List UInt8)
    (s : Xxh64State) : Prop where
  totalLen : s.totalLen = BitVec.ofNat 64 input.length
  memsize : s.rest.memsize < 32
  buffered : s.rest.buffered = feed64 e seed input

theorem Xxh32State.Holds.reset (e : Endian) (seed : BitVec 32) :
    (xxh32Reset seed).Holds e seed [] where
  totalLen32 := rfl
  largeLen := rfl
  memsize := by norm_num [xxh32Reset]
  buffered := rfl

theorem Xxh64State.Holds.reset (e : Endian) (seed : BitVec 64) :
    (xxh64Reset seed).Holds e seed [] where
  totalLen := rfl
  memsize := by norm_num [xxh64Reset]
  buffered := rfl

/-- One more piece. The counter of the 32-bit variant wraps, but the mark that the key is a long
one is set before it does. -/
theorem Xxh32State.Holds.update {e : Endian} {seed : BitVec 32} {input : List UInt8}
    {s : Xxh32State} (hs : s.Holds e seed input) (piece : List UInt8) :
    (xxh32Update e s (some piece)).1.Holds e seed (input ++ piece) where
  totalLen32 := by
    rw [xxh32Update, hs.totalLen32, List.length_append, BitVec.ofNat_add]
  largeLen := by
    have hnat : (BitVec.ofNat 32 input.length + BitVec.ofNat 32 piece.length).toNat =
        (input.length + piece.length) % 2 ^ 32 := by
      rw [← BitVec.ofNat_add, BitVec.toNat_ofNat]
    simp only [xxh32Update, hs.largeLen, hs.totalLen32, hnat, List.length_append]
    by_cases hlong : 16 ≤ input.length ∨ 16 ≤ piece.length
    · rcases hlong with h | h <;>
        simp only [h, decide_true, Bool.true_or, Bool.or_true, true_eq_decide_iff] <;> omega
    · obtain ⟨hinput, hpiece⟩ := not_or.mp hlong
      rw [Nat.mod_eq_of_lt (by omega), decide_eq_false hinput, decide_eq_false hpiece,
        Bool.false_or, Bool.false_or]
  memsize := (HashState.update_refines piece hs.memsize).2.1
  buffered := by
    rw [feed32, Buffered.feed_append, ← feed32, ← hs.buffered]
    exact (HashState.update_refines piece hs.memsize).1

theorem Xxh64State.Holds.update {e : Endian} {seed : BitVec 64} {input : List UInt8}
    {s : Xxh64State} (hs : s.Holds e seed input) (piece : List UInt8) :
    (xxh64Update e s (some piece)).1.Holds e seed (input ++ piece) where
  totalLen := by
    rw [xxh64Update, hs.totalLen, List.length_append, BitVec.ofNat_add]
  memsize := (HashState.update_refines piece hs.memsize).2.1
  buffered := by
    rw [feed64, Buffered.feed_append, ← feed64, ← hs.buffered]
    exact (HashState.update_refines piece hs.memsize).1

/-- The pieces that are not null pointers, put together. -/
def wholeKey (pieces : List (Option (List UInt8))) : List UInt8 := pieces.reduceOption.flatten

/-- The state after `reset` and the updates with some pieces. -/
def xxh32Updates (e : Endian) (seed : BitVec 32) (pieces : List (Option (List UInt8))) :
    Xxh32State :=
  pieces.foldl (fun s piece => (xxh32Update e s piece).1) (xxh32Reset seed)

def xxh64Updates (e : Endian) (seed : BitVec 64) (pieces : List (Option (List UInt8))) :
    Xxh64State :=
  pieces.foldl (fun s piece => (xxh64Update e s piece).1) (xxh64Reset seed)

/-- What each update keeps, all of them keep. -/
theorem holds_of_pieces {S : Type} {update : S → Option (List UInt8) → S}
    {P : List UInt8 → S → Prop} {s₀ : S} (hstart : P [] s₀) (hnone : ∀ s, update s none = s)
    (hsome : ∀ input s piece, P input s → P (input ++ piece) (update s (some piece)))
    (pieces : List (Option (List UInt8))) : P (wholeKey pieces) (pieces.foldl update s₀) := by
  induction pieces using List.reverseRecOn with
  | nil => exact hstart
  | append_singleton pieces piece ih =>
      rw [List.foldl_append, List.foldl_cons, List.foldl_nil, wholeKey, List.reduceOption_append]
      cases piece with
      | none =>
          rw [hnone, List.reduceOption_cons_of_none, List.reduceOption_nil, List.append_nil]
          exact ih
      | some piece =>
          rw [List.reduceOption_cons_of_some, List.reduceOption_nil, List.flatten_append,
            List.flatten_singleton]
          exact hsome _ _ piece ih

/-- Whatever the pieces, the state holds the key they make up. -/
theorem xxh32Updates_holds (e : Endian) (seed : BitVec 32) (pieces : List (Option (List UInt8))) :
    (xxh32Updates e seed pieces).Holds e seed (wholeKey pieces) :=
  holds_of_pieces (Xxh32State.Holds.reset e seed) (fun _ => rfl)
    (fun _ _ piece hs => hs.update piece) pieces

theorem xxh64Updates_holds (e : Endian) (seed : BitVec 64) (pieces : List (Option (List UInt8))) :
    (xxh64Updates e seed pieces).Holds e seed (wholeKey pieces) :=
  holds_of_pieces (Xxh64State.Holds.reset e seed) (fun _ => rfl)
    (fun _ _ piece hs => hs.update piece) pieces

/-- The bytes of the buffer: those held back, then those of earlier stripes. -/
theorem HashState.read_buffer {n : ℕ} {s : HashState w} (h : s.memsize < n) :
    s.mem.read 0 n = s.buffered.held ++ s.mem.read s.memsize (n - s.memsize) := by
  have hadd := Memory.read_add s.mem 0 s.memsize (n - s.memsize)
  rwa [Nat.add_sub_cancel' h.le, Nat.zero_add] at hadd

theorem Xxh32State.Holds.digest {e : Endian} {seed : BitVec 32} {input : List UInt8}
    {s : Xxh32State} (hs : s.Holds e seed input) : xxh32Digest e s = xxh32 e input seed := by
  have hseed : seed + 0 = seed := BitVec.add_zero seed
  have hacc : s.rest.v = (feed32 e seed input).acc := congrArg Buffered.acc hs.buffered
  have hlen : s.rest.memsize = input.length % 16 := by
    have hheld := congrArg (fun b => b.held.length) hs.buffered
    rwa [HashState.buffered, Memory.length_read, feed32,
      Buffered.length_held_feed (by norm_num), List.length_nil, Nat.zero_add] at hheld
  have hheld : (feed32 e seed input).held.length = input.length % 16 := by
    rw [← hs.buffered, HashState.buffered, Memory.length_read, hlen]
  rw [xxh32_eq, xxh32Digest, HashState.read_buffer hs.memsize, hs.buffered, hs.totalLen32,
    hs.largeLen, hlen, xxh32Finalize_append (by rw [hheld]; omega)]
  by_cases hlong : 16 ≤ input.length
  · rw [if_pos hlong, decide_eq_true hlong, if_pos rfl, hacc]
  · have hfeed : feed32 e seed input = ⟨Lanes.start prime32_1 prime32_2 seed, input⟩ :=
      Buffered.feed_of_lt (by rw [List.length_nil]; omega)
    rw [if_neg hlong, decide_eq_false hlong, if_neg Bool.false_ne_true, hacc, hfeed]
    simp only [Lanes.start, hseed]

theorem Xxh64State.Holds.digest {e : Endian} {seed : BitVec 64} {input : List UInt8}
    {s : Xxh64State} (hs : s.Holds e seed input) (hlt : input.length < 2 ^ 64) :
    xxh64Digest e s = xxh64 e input seed := by
  have hseed : seed + 0 = seed := BitVec.add_zero seed
  have hacc : s.rest.v = (feed64 e seed input).acc := congrArg Buffered.acc hs.buffered
  have hheld : (feed64 e seed input).held.length = input.length % 32 := by
    rw [feed64, Buffered.length_held_feed (by norm_num), List.length_nil, Nat.zero_add]
  have htotal : s.totalLen.toNat = input.length := by
    rw [hs.totalLen, BitVec.toNat_ofNat, Nat.mod_eq_of_lt hlt]
  rw [xxh64_eq, xxh64Digest, HashState.read_buffer hs.memsize, hs.buffered, htotal, hs.totalLen,
    xxh64Finalize_append hheld.ge]
  by_cases hlong : 32 ≤ input.length
  · rw [if_pos hlong, if_pos hlong, hacc]
  · have hfeed : feed64 e seed input = ⟨Lanes.start prime64_1 prime64_2 seed, input⟩ :=
      Buffered.feed_of_lt (by rw [List.length_nil]; omega)
    rw [if_neg hlong, if_neg hlong, hacc, hfeed]
    simp only [Lanes.start, hseed]

/-- **The 32-bit digest of the pieces of a key is the hash of the key.** -/
theorem xxh32_stream (e : Endian) (seed : BitVec 32) (pieces : List (Option (List UInt8))) :
    xxh32Digest e (xxh32Updates e seed pieces) = xxh32 e (wholeKey pieces) seed :=
  (xxh32Updates_holds e seed pieces).digest

/-- **The 64-bit digest of the pieces of a key is the hash of the key**, of any length that
fits the memory of the machine. -/
theorem xxh64_stream (e : Endian) (seed : BitVec 64) (pieces : List (Option (List UInt8)))
    (hlt : (wholeKey pieces).length < 2 ^ 64) :
    xxh64Digest e (xxh64Updates e seed pieces) = xxh64 e (wholeKey pieces) seed :=
  (xxh64Updates_holds e seed pieces).digest hlt

/-- A stripe of 32 bytes begins in one piece and ends in the next, which fills another one and
leaves six bytes in the buffer. -/
theorem xxh64_stream_stripe :
    xxh64Digest .little (xxh64Updates .little 0
        [some (List.replicate 20 97), none, some (List.replicate 50 98)]) =
      xxh64 .little (List.replicate 20 97 ++ List.replicate 50 98) 0 :=
  xxh64_stream .little 0
    [some (List.replicate 20 97), none, some (List.replicate 50 98)] (by decide)

end Ooops
