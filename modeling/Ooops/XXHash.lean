import Ooops.Basis.Blocks
import Ooops.Basis.Memory
import Ooops.Basis.Mixing

/-!
# The Hash Function

The vendored hash function from which the hash table takes its buckets, in its 32-bit and
its 64-bit variant: the function of a whole key (`xxh32`, `xxh64`), the streaming interface
that is handed a key in pieces (`reset`, `update`, `digest`), and the form in which a hash is
stored. All of them run on a machine of either byte order.

The two variants have the same shape. A key is read in stripes of four words, a word for each
of four accumulators; the accumulators are mixed together at the end, and the bytes that are
left over are mixed in one by one, or four or eight at a time.

* `xxh64`, `xxh32`: the hash of a whole key.
-/

open Basis

namespace Ooops

/-- The byte order of a machine. -/
inductive Endian
  | big
  | little
  deriving DecidableEq

namespace Endian

/-- How the machine stores a number of `k` bytes. -/
def bytes (e : Endian) (k n : ℕ) : List UInt8 :=
  match e with
  | big => (leBytes k n).reverse
  | little => leBytes k n

/-- How the machine reads a number. -/
def value (e : Endian) (bs : List UInt8) : ℕ :=
  match e with
  | big => ofLE bs.reverse
  | little => ofLE bs

/-- `XXH_isLittleEndian`: the first byte of the number one. -/
def isLittle (e : Endian) : Bool := (e.bytes 4 1).head? == some 1

end Endian

variable {w : ℕ}

/-- `XXH_swap32` and `XXH_swap64`: the bytes of a word the other way round. -/
def swap (x : BitVec w) : BitVec w := BitVec.ofNat w (ofLE (leBytes (w / 8) x.toNat).reverse)

/-- `XXH_readLE32` and `XXH_readLE64`. -/
def readLE (w : ℕ) (e : Endian) (p : List UInt8) : BitVec w :=
  if e.isLittle then BitVec.ofNat w (e.value p) else swap (BitVec.ofNat w (e.value p))

/-- `XXH_readBE32` and `XXH_readBE64`. -/
def readBE (w : ℕ) (e : Endian) (p : List UInt8) : BitVec w :=
  if e.isLittle then swap (BitVec.ofNat w (e.value p)) else BitVec.ofNat w (e.value p)

/-- `XXH32_canonicalFromHash` and `XXH64_canonicalFromHash`. -/
def canonicalFromHash (e : Endian) (hash : BitVec w) : List UInt8 :=
  e.bytes (w / 8) (if e.isLittle then swap hash else hash).toNat

/-- `XXH32_hashFromCanonical` and `XXH64_hashFromCanonical`. -/
def hashFromCanonical (w : ℕ) (e : Endian) (src : List UInt8) : BitVec w := readBE w e src

/-! ### Rounds -/

/-- One word for an accumulator. -/
def xxhRound (prime1 prime2 : BitVec w) (r : ℕ) (acc input : BitVec w) : BitVec w :=
  rotl (acc + input * prime2) r * prime1

/-- The last mixing of all bits. -/
def xxhAvalanche (prime2 prime3 : BitVec w) (s₁ s₂ s₃ : ℕ) (h : BitVec w) : BitVec w :=
  let h := h ^^^ (h >>> s₁)
  let h := h * prime2
  let h := h ^^^ (h >>> s₂)
  let h := h * prime3
  h ^^^ (h >>> s₃)

/-- The four accumulators. -/
structure Lanes (w : ℕ) where
  v1 : BitVec w
  v2 : BitVec w
  v3 : BitVec w
  v4 : BitVec w

/-- The accumulators before the first stripe. -/
def Lanes.start (prime1 prime2 seed : BitVec w) : Lanes w where
  v1 := seed + prime1 + prime2
  v2 := seed + prime2
  v3 := seed + 0
  v4 := seed - prime1

/-- One stripe: a word for each accumulator. -/
def Lanes.stripe (round : BitVec w → BitVec w → BitVec w) (e : Endian) (v : Lanes w)
    (p : List UInt8) : Lanes w where
  v1 := round v.v1 (readLE w e (p.take (w / 8)))
  v2 := round v.v2 (readLE w e ((p.drop (w / 8)).take (w / 8)))
  v3 := round v.v3 (readLE w e ((p.drop (2 * (w / 8))).take (w / 8)))
  v4 := round v.v4 (readLE w e ((p.drop (3 * (w / 8))).take (w / 8)))

/-- The sum from which the last stage starts. -/
def Lanes.sum (v : Lanes w) : BitVec w := rotl v.v1 1 + rotl v.v2 7 + rotl v.v3 12 + rotl v.v4 18

/-- The last stage: step after step from the bytes at `p`, each of which takes its own number
of bytes. -/
def processAll {ι : Type} (size : ι → ℕ) (step : ι → BitVec w → List UInt8 → BitVec w) :
    List ι → BitVec w → List UInt8 → BitVec w
  | [], h, _ => h
  | u :: us, h, p => processAll size step us (step u h (p.take (size u))) (p.drop (size u))

/-! ### The 32-bit variant -/

/-- `PRIME32_1`. -/
def prime32_1 : BitVec 32 := 2654435761
/-- `PRIME32_2`. -/
def prime32_2 : BitVec 32 := 2246822519
/-- `PRIME32_3`. -/
def prime32_3 : BitVec 32 := 3266489917
/-- `PRIME32_4`. -/
def prime32_4 : BitVec 32 := 668265263
/-- `PRIME32_5`. -/
def prime32_5 : BitVec 32 := 374761393

/-- `XXH32_round`. -/
def xxh32Round : BitVec 32 → BitVec 32 → BitVec 32 := xxhRound prime32_1 prime32_2 13

/-- `XXH32_avalanche`. -/
def xxh32Avalanche : BitVec 32 → BitVec 32 := xxhAvalanche prime32_2 prime32_3 15 13 16

/-- The steps of `XXH32_finalize`: `PROCESS1` and `PROCESS4`. -/
inductive Process32
  | one
  | four
  deriving DecidableEq

/-- The bytes that a step takes. -/
def Process32.size : Process32 → ℕ
  | one => 1
  | four => 4

/-- What a step does. -/
def Process32.run (e : Endian) : Process32 → BitVec 32 → List UInt8 → BitVec 32
  | one, h, p => rotl (h + BitVec.ofNat 32 (ofLE p) * prime32_5) 11 * prime32_1
  | four, h, p => rotl (h + readLE 32 e p * prime32_3) 17 * prime32_4

/-- `switch(len&15)` of `XXH32_finalize`: the steps from each case on. -/
def switch32 : ℕ → List Process32
  | 12 => [.four, .four, .four]
  | 8 => [.four, .four]
  | 4 => [.four]
  | 13 => [.four, .four, .four, .one]
  | 9 => [.four, .four, .one]
  | 5 => [.four, .one]
  | 14 => [.four, .four, .four, .one, .one]
  | 10 => [.four, .four, .one, .one]
  | 6 => [.four, .one, .one]
  | 15 => [.four, .four, .four, .one, .one, .one]
  | 11 => [.four, .four, .one, .one, .one]
  | 7 => [.four, .one, .one, .one]
  | 3 => [.one, .one, .one]
  | 2 => [.one, .one]
  | 1 => [.one]
  | _ => []

/-- `XXH32_finalize`. -/
def xxh32Finalize (e : Endian) (h : BitVec 32) (p : List UInt8) (len : ℕ) : BitVec 32 :=
  xxh32Avalanche (processAll Process32.size (Process32.run e) (switch32 (len % 16)) h p)

/-- `XXH32`: the hash of a key. -/
def xxh32 (e : Endian) (input : List UInt8) (seed : BitVec 32) : BitVec 32 :=
  let (h, p) :=
    if 16 ≤ input.length then
      let (v, p) := blockLoop 16 (Lanes.stripe xxh32Round e) input.length
        (Lanes.start prime32_1 prime32_2 seed) input
      (v.sum, p)
    else (seed + prime32_5, input)
  xxh32Finalize e (h + BitVec.ofNat 32 input.length) p (input.length % 16)

/-! ### The 64-bit variant -/

/-- `PRIME64_1`. -/
def prime64_1 : BitVec 64 := 11400714785074694791
/-- `PRIME64_2`. -/
def prime64_2 : BitVec 64 := 14029467366897019727
/-- `PRIME64_3`. -/
def prime64_3 : BitVec 64 := 1609587929392839161
/-- `PRIME64_4`. -/
def prime64_4 : BitVec 64 := 9650029242287828579
/-- `PRIME64_5`. -/
def prime64_5 : BitVec 64 := 2870177450012600261

/-- `XXH64_round`. -/
def xxh64Round : BitVec 64 → BitVec 64 → BitVec 64 := xxhRound prime64_1 prime64_2 31

/-- `XXH64_mergeRound`. -/
def xxh64MergeRound (acc val : BitVec 64) : BitVec 64 :=
  (acc ^^^ xxh64Round 0 val) * prime64_1 + prime64_4

/-- `XXH64_avalanche`. -/
def xxh64Avalanche : BitVec 64 → BitVec 64 := xxhAvalanche prime64_2 prime64_3 33 29 32

/-- The steps of `XXH64_finalize`: `PROCESS1_64`, `PROCESS4_64` and `PROCESS8_64`. -/
inductive Process64
  | one
  | four
  | eight
  deriving DecidableEq

/-- The bytes that a step takes. -/
def Process64.size : Process64 → ℕ
  | one => 1
  | four => 4
  | eight => 8

/-- What a step does. -/
def Process64.run (e : Endian) : Process64 → BitVec 64 → List UInt8 → BitVec 64
  | one, h, p => rotl (h ^^^ (BitVec.ofNat 64 (ofLE p) * prime64_5)) 11 * prime64_1
  | four, h, p =>
    rotl (h ^^^ ((readLE 32 e p).setWidth 64 * prime64_1)) 23 * prime64_2 + prime64_3
  | eight, h, p => rotl (h ^^^ xxh64Round 0 (readLE 64 e p)) 27 * prime64_1 + prime64_4

/-- `switch(len&31)` of `XXH64_finalize`: the steps from each case on. -/
def switch64 : ℕ → List Process64
  | 24 => [.eight, .eight, .eight]
  | 16 => [.eight, .eight]
  | 8 => [.eight]
  | 28 => [.eight, .eight, .eight, .four]
  | 20 => [.eight, .eight, .four]
  | 12 => [.eight, .four]
  | 4 => [.four]
  | 25 => [.eight, .eight, .eight, .one]
  | 17 => [.eight, .eight, .one]
  | 9 => [.eight, .one]
  | 29 => [.eight, .eight, .eight, .four, .one]
  | 21 => [.eight, .eight, .four, .one]
  | 13 => [.eight, .four, .one]
  | 5 => [.four, .one]
  | 26 => [.eight, .eight, .eight, .one, .one]
  | 18 => [.eight, .eight, .one, .one]
  | 10 => [.eight, .one, .one]
  | 30 => [.eight, .eight, .eight, .four, .one, .one]
  | 22 => [.eight, .eight, .four, .one, .one]
  | 14 => [.eight, .four, .one, .one]
  | 6 => [.four, .one, .one]
  | 27 => [.eight, .eight, .eight, .one, .one, .one]
  | 19 => [.eight, .eight, .one, .one, .one]
  | 11 => [.eight, .one, .one, .one]
  | 31 => [.eight, .eight, .eight, .four, .one, .one, .one]
  | 23 => [.eight, .eight, .four, .one, .one, .one]
  | 15 => [.eight, .four, .one, .one, .one]
  | 7 => [.four, .one, .one, .one]
  | 3 => [.one, .one, .one]
  | 2 => [.one, .one]
  | 1 => [.one]
  | _ => []

/-- `XXH64_finalize`. -/
def xxh64Finalize (e : Endian) (h : BitVec 64) (p : List UInt8) (len : ℕ) : BitVec 64 :=
  xxh64Avalanche (processAll Process64.size (Process64.run e) (switch64 (len % 32)) h p)

/-- The accumulators of the 64-bit variant mixed together. -/
def Lanes.merge (v : Lanes 64) : BitVec 64 :=
  xxh64MergeRound (xxh64MergeRound (xxh64MergeRound (xxh64MergeRound v.sum v.v1) v.v2) v.v3) v.v4

/-- `XXH64`: the hash of a key. -/
def xxh64 (e : Endian) (input : List UInt8) (seed : BitVec 64) : BitVec 64 :=
  let (h, p) :=
    if 32 ≤ input.length then
      let (v, p) := blockLoop 32 (Lanes.stripe xxh64Round e) input.length
        (Lanes.start prime64_1 prime64_2 seed) input
      (v.merge, p)
    else (seed + prime64_5, input)
  xxh64Finalize e (h + BitVec.ofNat 64 input.length) p input.length

example : xxh64 .little [97, 98, 99] 0 = 0x44BC2CF5AD770999 := by decide

example : xxh32 .little [97, 98, 99] 0 = 0x32D153FF := by decide

end Ooops
