import Ooops.XXHashStream

/-!
# Byte Order and Collisions

The hash function on machines of either byte order, and keys that it keeps apart.

* `xxh64_portable`: the hash of a key is the same on both machines, and so are the bytes in which
  a hash is stored, from which either machine reads it back.
* `xxh64_eq_iff` and `xxh32_eq_iff`: two keys of one length that differ only within one of the
  words that the last stage reads have different hashes. For the keys of less than a stripe, as
  all names of hosts are, these are all words of the key.
-/

open Basis

namespace Ooops

variable {w k : ℕ}

/-! ### Byte order -/

@[simp] theorem isLittle_little : Endian.little.isLittle = true := by decide

@[simp] theorem isLittle_big : Endian.big.isLittle = false := by decide

theorem ofLE_lt_two_pow {p : List UInt8} (hw : w = 8 * k) (hp : p.length = k) :
    ofLE p < 2 ^ w := by
  have hlt := ofLE_lt p
  rwa [hp, show (256 : ℕ) = 2 ^ 8 by norm_num, ← pow_mul, ← hw] at hlt

/-- Swapping a word is reversing its bytes. -/
theorem swap_ofNat {p : List UInt8} (hw : w = 8 * k) (hp : p.length = k) :
    swap (BitVec.ofNat w (ofLE p)) = BitVec.ofNat w (ofLE p.reverse) := by
  have hk : w / 8 = p.length := by omega
  rw [swap, BitVec.toNat_ofNat, Nat.mod_eq_of_lt (ofLE_lt_two_pow hw hp), hk, leBytes_ofLE]

/-- A word is read in the same way on both machines. -/
theorem readLE_eq (e : Endian) {p : List UInt8} (hw : w = 8 * k) (hp : p.length = k) :
    readLE w e p = BitVec.ofNat w (ofLE p) := by
  cases e with
  | big =>
      rw [readLE, isLittle_big, if_neg Bool.false_ne_true, Endian.value,
        swap_ofNat hw (by rwa [List.length_reverse]), List.reverse_reverse]
  | little => rw [readLE, isLittle_little, if_pos rfl, Endian.value]

theorem readBE_eq (e : Endian) {p : List UInt8} (hw : w = 8 * k) (hp : p.length = k) :
    readBE w e p = BitVec.ofNat w (ofLE p.reverse) := by
  cases e with
  | big => rw [readBE, isLittle_big, if_neg Bool.false_ne_true, Endian.value]
  | little => rw [readBE, isLittle_little, if_pos rfl, Endian.value, swap_ofNat hw hp]

/-- A hash is stored with its highest byte first, on both machines. -/
theorem canonicalFromHash_eq (e : Endian) (hw : w = 8 * k) (h : BitVec w) :
    canonicalFromHash e h = (leBytes k h.toNat).reverse := by
  have hk : w / 8 = k := by omega
  cases e with
  | big => simp only [canonicalFromHash, isLittle_big, Bool.false_eq_true, if_false,
      Endian.bytes, hk]
  | little =>
      have hbytes : (leBytes k h.toNat).reverse.length = k := by
        rw [List.length_reverse, length_leBytes]
      have hle := leBytes_ofLE (leBytes k h.toNat).reverse
      rw [hbytes] at hle
      simp only [canonicalFromHash, isLittle_little, if_true, Endian.bytes, swap, hk,
        BitVec.toNat_ofNat]
      rw [Nat.mod_eq_of_lt (ofLE_lt_two_pow hw hbytes), hle]

/-- What one machine has stored, the other reads. -/
theorem hashFromCanonical_canonicalFromHash (e e' : Endian) (hw : w = 8 * k) (h : BitVec w) :
    hashFromCanonical w e' (canonicalFromHash e h) = h := by
  have hlt : h.toNat < 256 ^ k := by
    rw [show (256 : ℕ) = 2 ^ 8 by norm_num, ← pow_mul, ← hw]
    exact h.isLt
  rw [hashFromCanonical, canonicalFromHash_eq e hw,
    readBE_eq e' hw (by rw [List.length_reverse, length_leBytes]), List.reverse_reverse,
    ofLE_leBytes, Nat.mod_eq_of_lt hlt, BitVec.ofNat_toNat, BitVec.setWidth_eq]

/-- And every stored form is that of the hash read from it. -/
theorem canonicalFromHash_hashFromCanonical (e e' : Endian) (hw : w = 8 * k) {c : List UInt8}
    (hc : c.length = k) : canonicalFromHash e (hashFromCanonical w e' c) = c := by
  have hrev : c.reverse.length = k := by rwa [List.length_reverse]
  have hle := leBytes_ofLE c.reverse
  rw [hrev] at hle
  rw [hashFromCanonical, canonicalFromHash_eq e hw, readBE_eq e' hw hc, BitVec.toNat_ofNat,
    Nat.mod_eq_of_lt (ofLE_lt_two_pow hw hrev), hle, List.reverse_reverse]

/-- A stripe is the same on both machines. -/
theorem stripe_eq (e e' : Endian) (round : BitVec w → BitVec w → BitVec w) (v : Lanes w)
    {p : List UInt8} (hw : w = 8 * k) (hp : p.length = 4 * k) :
    v.stripe round e p = v.stripe round e' p := by
  have hk : w / 8 = k := by omega
  have hread (i : ℕ) (hi : i ≤ 3 * k) :
      readLE w e ((p.drop i).take k) = readLE w e' ((p.drop i).take k) := by
    have hlen : ((p.drop i).take k).length = k :=
      List.length_take_of_le (by rw [List.length_drop]; omega)
    rw [readLE_eq e hw hlen, readLE_eq e' hw hlen]
  have hread₀ := hread 0 (Nat.zero_le _)
  rw [List.drop_zero] at hread₀
  simp only [Lanes.stripe, hk, hread₀, hread k (by omega), hread (2 * k) (by omega),
    hread (3 * k) (by omega)]

/-- Steps that agree on their own bytes agree. -/
theorem processAll_congr {ι : Type} {size : ι → ℕ}
    {step step' : ι → BitVec w → List UInt8 → BitVec w}
    (hstep : ∀ u h p, p.length = size u → step u h p = step' u h p) {us : List ι} {h : BitVec w}
    {p : List UInt8} (hp : (us.map size).sum ≤ p.length) :
    processAll size step us h p = processAll size step' us h p := by
  induction us generalizing h p with
  | nil => rfl
  | cons u us ih =>
      rw [List.map_cons, List.sum_cons] at hp
      rw [processAll, processAll, hstep u h _ (List.length_take_of_le (by omega)),
        ih (by rw [List.length_drop]; omega)]

theorem Process64.run_eq (e e' : Endian) (u : Process64) (h : BitVec 64) {p : List UInt8}
    (hp : p.length = u.size) : u.run e h p = u.run e' h p := by
  cases u with
  | one => rfl
  | four => simp only [run, readLE_eq (k := 4) e rfl hp, readLE_eq (k := 4) e' rfl hp]
  | eight => simp only [run, readLE_eq (k := 8) e rfl hp, readLE_eq (k := 8) e' rfl hp]

theorem feed64_eq (e e' : Endian) (seed : BitVec 64) (input : List UInt8) :
    feed64 e seed input = feed64 e' seed input :=
  Buffered.feed_congr (fun v _ hblk => stripe_eq e e' xxh64Round v (k := 8) rfl hblk) input

/-- What is held back of a key. -/
theorem length_held_feed64 (e : Endian) (seed : BitVec 64) (input : List UInt8) :
    (feed64 e seed input).held.length = input.length % 32 := by
  rw [feed64, Buffered.length_held_feed (by norm_num), List.length_nil, Nat.zero_add]

/-- **The 64-bit hash is portable**: machines of both byte orders agree on the hash of every key
and on the bytes in which it is stored, and each reads back what the other has stored. -/
theorem xxh64_portable (e e' : Endian) (key : List UInt8) (seed hash : BitVec 64) :
    xxh64 e key seed = xxh64 e' key seed ∧
      canonicalFromHash e hash = canonicalFromHash e' hash ∧
      hashFromCanonical 64 e' (canonicalFromHash e hash) = hash ∧
      ∀ c : List UInt8, c.length = 8 → canonicalFromHash e' (hashFromCanonical 64 e c) = c := by
  refine ⟨?_, ?_, hashFromCanonical_canonicalFromHash (k := 8) e e' rfl hash,
    fun c hc => canonicalFromHash_hashFromCanonical (k := 8) e' e rfl hc⟩
  · have hsum : ((switch64 (key.length % 32)).map Process64.size).sum ≤
        (feed64 e' seed key).held.length := by
      rw [sum_size_switch64 _ (Nat.mod_lt _ (by norm_num)), length_held_feed64]
    rw [xxh64_eq, xxh64_eq, feed64_eq e e', xxh64Finalize, xxh64Finalize,
      processAll_congr (fun u h p hp => Process64.run_eq e e' u h hp) hsum]
  · rw [canonicalFromHash_eq (k := 8) e rfl, canonicalFromHash_eq (k := 8) e' rfl]

/-! ### Collisions -/

/-- A step loses nothing: the word made before it can be recovered from the one made after it, and
so can the bytes that it takes. -/
structure Lossless (n : ℕ) (step : BitVec w → List UInt8 → BitVec w) : Prop where
  word : ∀ p, p.length = n → Function.Injective fun h => step h p
  bytes : ∀ h, Set.InjOn (step h) {p | p.length = n}

section

variable {ι : Type} {size : ι → ℕ} {step : ι → BitVec w → List UInt8 → BitVec w}

theorem processAll_append_list (us vs : List ι) (h : BitVec w) (p : List UInt8) :
    processAll size step (us ++ vs) h p =
      processAll size step vs (processAll size step us h p) (p.drop (us.map size).sum) := by
  induction us generalizing h p with
  | nil => rfl
  | cons u us ih =>
      rw [List.cons_append, processAll, ih, processAll, List.map_cons, List.sum_cons,
        List.drop_drop]

/-- The last stage loses nothing of the word it starts from. -/
theorem processAll_injective (hstep : ∀ u, Lossless (size u) (step u)) {us : List ι}
    {p : List UInt8} (hp : (us.map size).sum ≤ p.length) :
    Function.Injective fun h => processAll size step us h p := by
  induction us generalizing p with
  | nil => exact fun _ _ h => h
  | cons u us ih =>
      rw [List.map_cons, List.sum_cons] at hp
      intro h h' heq
      have hrest := ih (p := p.drop (size u)) (by rw [List.length_drop]; omega) heq
      exact (hstep u).word _ (List.length_take_of_le (by omega)) hrest

/-- Nor of any of the words it reads. -/
theorem processAll_word (hstep : ∀ u, Lossless (size u) (step u)) {us vs : List ι} {u : ι}
    {h : BitVec w} {pre x y post : List UInt8} (hpre : (us.map size).sum = pre.length)
    (hx : x.length = size u) (hy : y.length = size u) (hpost : (vs.map size).sum ≤ post.length)
    (heq : processAll size step (us ++ u :: vs) h (pre ++ (x ++ post)) =
      processAll size step (us ++ u :: vs) h (pre ++ (y ++ post))) : x = y := by
  rw [processAll_append_list, processAll_append_list, hpre, List.drop_left, List.drop_left,
    processAll_append hpre.le, processAll_append hpre.le, processAll, processAll, ← hx,
    List.take_left, List.drop_left, hx, ← hy, List.take_left, List.drop_left] at heq
  exact (hstep u).bytes _ hx hy (processAll_injective hstep hpost heq)

/-- The words that some steps read from an offset on: where they start and how long they are. -/
def wordsFrom (size : ι → ℕ) : ℕ → List ι → List (ℕ × ℕ)
  | _, [] => []
  | o, u :: us => (o, size u) :: wordsFrom size (o + size u) us

theorem mem_wordsFrom {us : List ι} {m o k : ℕ} (h : (o, k) ∈ wordsFrom size m us) :
    ∃ us₁ u us₂, us = us₁ ++ u :: us₂ ∧ o = m + (us₁.map size).sum ∧ k = size u := by
  induction us generalizing m with
  | nil => simp only [wordsFrom, List.not_mem_nil] at h
  | cons u us ih =>
      rw [wordsFrom, List.mem_cons] at h
      rcases h with h | h
      · obtain ⟨rfl, rfl⟩ := Prod.mk.injEq .. ▸ h
        exact ⟨[], u, us, rfl, rfl, rfl⟩
      · obtain ⟨us₁, v, us₂, rfl, rfl, rfl⟩ := ih h
        refine ⟨u :: us₁, v, us₂, rfl, ?_, rfl⟩
        rw [List.map_cons, List.sum_cons, Nat.add_assoc]

/-- Two texts that agree outside one of the words. -/
theorem eq_of_processAll_eq (hstep : ∀ u, Lossless (size u) (step u)) {us vs : List ι} {u : ι}
    {h : BitVec w} {p q : List UInt8} {o : ℕ} (hlen : p.length = q.length)
    (hsum : ((us ++ u :: vs).map size).sum ≤ p.length) (ho : (us.map size).sum = o)
    (hbefore : p.take o = q.take o) (hafter : p.drop (o + size u) = q.drop (o + size u))
    (heq : processAll size step (us ++ u :: vs) h p = processAll size step (us ++ u :: vs) h q) :
    p = q := by
  rw [List.map_append, List.map_cons, List.sum_append, List.sum_cons] at hsum
  have hsplit (l : List UInt8) :
      l = l.take o ++ ((l.drop o).take (size u) ++ l.drop (o + size u)) := by
    rw [← List.drop_drop, List.take_append_drop, List.take_append_drop]
  have hword (l : List UInt8) (hl : l.length = p.length) :
      ((l.drop o).take (size u)).length = size u :=
    List.length_take_of_le (by rw [List.length_drop]; omega)
  rw [hsplit p, hsplit q, ← hbefore, ← hafter] at heq ⊢
  rw [processAll_word hstep (by rw [List.length_take_of_le (by omega), ho]) (hword p rfl)
    (hword q hlen.symm) (by rw [List.length_drop]; omega) heq]

/-- Two keys that agree outside one of the words behind their first `m` bytes. -/
theorem keys_eq (hstep : ∀ u, Lossless (size u) (step u)) {us : List ι} {h : BitVec w}
    {a b : List UInt8} {m o k : ℕ} (hlen : a.length = b.length)
    (hsum : m + (us.map size).sum ≤ a.length) (hok : (o, k) ∈ wordsFrom size m us)
    (hbefore : a.take o = b.take o) (hafter : a.drop (o + k) = b.drop (o + k))
    (heq : processAll size step us h (a.drop m) = processAll size step us h (b.drop m)) :
    a = b := by
  obtain ⟨us₁, u, us₂, rfl, rfl, rfl⟩ := mem_wordsFrom hok
  have htake := congrArg (List.take m) hbefore
  rw [List.take_take, List.take_take, Nat.min_eq_left (Nat.le_add_right m _)] at htake
  have hdrop : a.drop m = b.drop m := by
    refine eq_of_processAll_eq hstep ?_ ?_ rfl ?_ ?_ heq
    · rw [List.length_drop, List.length_drop, hlen]
    · rw [List.length_drop]
      omega
    · have hdrop := congrArg (List.drop m) hbefore
      rwa [List.drop_take, List.drop_take, Nat.add_sub_cancel_left] at hdrop
    · rwa [List.drop_drop, List.drop_drop, ← Nat.add_assoc]
  rw [← List.take_append_drop m a, ← List.take_append_drop m b, htake, hdrop]

end

/-- Bytes that fit a word can be recovered from it. -/
theorem ofNat_ofLE_injOn {n : ℕ} (h : 8 * n ≤ w) :
    Set.InjOn (fun p => BitVec.ofNat w (ofLE p)) {p | p.length = n} := by
  intro p hp q hq hpq
  have hlt {l : List UInt8} (hl : l.length = n) : ofLE l < 2 ^ w :=
    (ofLE_lt_two_pow (k := n) rfl hl).trans_le (Nat.pow_le_pow_right (by norm_num) h)
  have hnat := congrArg BitVec.toNat hpq
  simp only [BitVec.toNat_ofNat, Nat.mod_eq_of_lt (hlt hp), Nat.mod_eq_of_lt (hlt hq)] at hnat
  rw [← leBytes_ofLE p, ← leBytes_ofLE q, hnat, hp, hq]

theorem readLE_injOn {e : Endian} (hw : w = 8 * k) :
    Set.InjOn (readLE w e) {p | p.length = k} := by
  intro p hp q hq hpq
  rw [readLE_eq e hw hp, readLE_eq e hw hq] at hpq
  exact ofNat_ofLE_injOn hw.ge hp hq hpq

theorem xxhRound_injective {prime1 prime2 acc : BitVec w} {r : ℕ} (h₁ : Odd prime1.toNat)
    (h₂ : Odd prime2.toNat) (hr : r < w) : Function.Injective (xxhRound prime1 prime2 r acc) := by
  intro x y hxy
  exact mul_odd_injective h₂
    ((BitVec.add_right_inj acc).mp (rotl_injective hr (mul_odd_injective h₁ hxy)))

theorem xxhAvalanche_injective {prime2 prime3 : BitVec w} {s₁ s₂ s₃ : ℕ} (h₂ : Odd prime2.toNat)
    (h₃ : Odd prime3.toNat) (hs₁ : 0 < s₁) (hs₂ : 0 < s₂) (hs₃ : 0 < s₃) :
    Function.Injective (xxhAvalanche prime2 prime3 s₁ s₂ s₃) := by
  intro x y hxy
  exact xorShift_injective hs₁ (mul_odd_injective h₂ (xorShift_injective hs₂
    (mul_odd_injective h₃ (xorShift_injective hs₃ hxy))))

theorem odd_primes64 : Odd prime64_1.toNat ∧ Odd prime64_2.toNat ∧ Odd prime64_3.toNat ∧
    Odd prime64_5.toNat := by decide

theorem odd_primes32 : Odd prime32_1.toNat ∧ Odd prime32_2.toNat ∧ Odd prime32_3.toNat ∧
    Odd prime32_4.toNat ∧ Odd prime32_5.toNat := by decide

theorem Process64.lossless (e : Endian) (u : Process64) : Lossless u.size (u.run e) := by
  obtain ⟨h₁, h₂, -, h₅⟩ := odd_primes64
  cases u with
  | one =>
      refine ⟨fun p _ x y hxy => ?_, fun h p hp q hq hpq => ?_⟩
      · exact (BitVec.xor_left_inj _).mp (rotl_injective (by norm_num) (mul_odd_injective h₁ hxy))
      · exact ofNat_ofLE_injOn (by norm_num [size]) hp hq (mul_odd_injective h₅
          ((BitVec.xor_right_inj _).mp (rotl_injective (by norm_num) (mul_odd_injective h₁ hpq))))
  | four =>
      refine ⟨fun p _ x y hxy => ?_, fun h p hp q hq hpq => ?_⟩
      · exact (BitVec.xor_left_inj _).mp (rotl_injective (by norm_num)
          (mul_odd_injective h₂ ((BitVec.add_left_inj _).mp hxy)))
      · exact readLE_injOn (k := 4) rfl hp hq (setWidth_injective (by norm_num)
          (mul_odd_injective h₁ ((BitVec.xor_right_inj _).mp (rotl_injective (by norm_num)
            (mul_odd_injective h₂ ((BitVec.add_left_inj _).mp hpq))))))
  | eight =>
      refine ⟨fun p _ x y hxy => ?_, fun h p hp q hq hpq => ?_⟩
      · exact (BitVec.xor_left_inj _).mp (rotl_injective (by norm_num)
          (mul_odd_injective h₁ ((BitVec.add_left_inj _).mp hxy)))
      · exact readLE_injOn (k := 8) rfl hp hq (xxhRound_injective h₁ h₂ (by norm_num)
          ((BitVec.xor_right_inj _).mp (rotl_injective (by norm_num)
            (mul_odd_injective h₁ ((BitVec.add_left_inj _).mp hpq)))))

theorem Process32.lossless (e : Endian) (u : Process32) : Lossless u.size (u.run e) := by
  obtain ⟨h₁, -, h₃, h₄, h₅⟩ := odd_primes32
  cases u with
  | one =>
      refine ⟨fun p _ x y hxy => ?_, fun h p hp q hq hpq => ?_⟩
      · exact (BitVec.add_left_inj _).mp (rotl_injective (by norm_num) (mul_odd_injective h₁ hxy))
      · exact ofNat_ofLE_injOn (by norm_num [size]) hp hq (mul_odd_injective h₅
          ((BitVec.add_right_inj _).mp (rotl_injective (by norm_num) (mul_odd_injective h₁ hpq))))
  | four =>
      refine ⟨fun p _ x y hxy => ?_, fun h p hp q hq hpq => ?_⟩
      · exact (BitVec.add_left_inj _).mp (rotl_injective (by norm_num) (mul_odd_injective h₄ hxy))
      · exact readLE_injOn (k := 4) rfl hp hq (mul_odd_injective h₃
          ((BitVec.add_right_inj _).mp (rotl_injective (by norm_num) (mul_odd_injective h₄ hpq))))

/-- The words of a key that the last stage reads: all of it that is behind the whole stripes. -/
def tailWords64 (len : ℕ) : List (ℕ × ℕ) :=
  wordsFrom Process64.size (32 * (len / 32)) (switch64 (len % 32))

def tailWords32 (len : ℕ) : List (ℕ × ℕ) :=
  wordsFrom Process32.size (16 * (len / 16)) (switch32 (len % 16))

theorem le_of_mem_wordsFrom {ι : Type} {size : ι → ℕ} {us : List ι} {m o k : ℕ}
    (h : (o, k) ∈ wordsFrom size m us) : m ≤ o := by
  obtain ⟨us₁, -, -, -, rfl, -⟩ := mem_wordsFrom h
  exact Nat.le_add_right m _

/-- Keys that agree on their whole stripes leave the same accumulators. -/
theorem feed_acc_eq {n o : ℕ} {f : Lanes w → List UInt8 → Lanes w} {v : Lanes w}
    {a b : List UInt8} (hlen : a.length = b.length) (ho : n * (a.length / n) ≤ o)
    (hbefore : a.take o = b.take o) :
    (Buffered.feed n f ⟨v, []⟩ (a.take (n * (a.length / n)))).acc =
      (Buffered.feed n f ⟨v, []⟩ (b.take (n * (b.length / n)))).acc := by
  have htake := congrArg (List.take (n * (a.length / n))) hbefore
  rw [List.take_take, List.take_take, Nat.min_eq_left ho] at htake
  rw [htake, hlen]

/-- **Keys that differ within one word have different hashes**: keys of one length that agree
outside one of the words that the last stage reads have the same hash only if they are equal. -/
theorem xxh64_eq_iff {e : Endian} {seed : BitVec 64} {a b : List UInt8} {o k : ℕ}
    (hlen : a.length = b.length) (hok : (o, k) ∈ tailWords64 a.length)
    (hbefore : a.take o = b.take o) (hafter : a.drop (o + k) = b.drop (o + k)) :
    xxh64 e a seed = xxh64 e b seed ↔ a = b := by
  refine ⟨fun heq => ?_, fun h => h ▸ rfl⟩
  have hsum := sum_size_switch64 (a.length % 32) (Nat.mod_lt _ (by norm_num))
  have hacc := feed_acc_eq (f := Lanes.stripe xxh64Round e)
    (v := Lanes.start prime64_1 prime64_2 seed) hlen (le_of_mem_wordsFrom hok) hbefore
  rw [xxh64_eq, xxh64_eq, feed64, feed64, Buffered.feed_eq_whole (by norm_num) a,
    Buffered.feed_eq_whole (by norm_num) b, hacc, ← hlen] at heq
  obtain ⟨-, h₂, h₃, -⟩ := odd_primes64
  exact keys_eq (Process64.lossless e) hlen (by rw [hsum, Nat.div_add_mod]) hok hbefore hafter
    (xxhAvalanche_injective h₂ h₃ (by norm_num) (by norm_num) (by norm_num) heq)

/-- Two nodes of one rack. -/
theorem xxh64_nodes_ne : xxh64 .little [99, 52, 48, 49, 45, 49, 48, 49] 0 ≠
    xxh64 .little [99, 52, 48, 49, 45, 49, 48, 50] 0 := fun h =>
  absurd ((xxh64_eq_iff (a := [99, 52, 48, 49, 45, 49, 48, 49])
    (b := [99, 52, 48, 49, 45, 49, 48, 50]) (o := 0) (k := 8) rfl (by decide) rfl rfl).mp h)
    (by decide)

/-- The same for the 32-bit variant. -/
theorem xxh32_eq_iff {e : Endian} {seed : BitVec 32} {a b : List UInt8} {o k : ℕ}
    (hlen : a.length = b.length) (hok : (o, k) ∈ tailWords32 a.length)
    (hbefore : a.take o = b.take o) (hafter : a.drop (o + k) = b.drop (o + k)) :
    xxh32 e a seed = xxh32 e b seed ↔ a = b := by
  refine ⟨fun heq => ?_, fun h => h ▸ rfl⟩
  have hsum := sum_size_switch32 (a.length % 16) (Nat.mod_lt _ (by norm_num))
  have hacc := feed_acc_eq (f := Lanes.stripe xxh32Round e)
    (v := Lanes.start prime32_1 prime32_2 seed) hlen (le_of_mem_wordsFrom hok) hbefore
  rw [xxh32_eq, xxh32_eq, feed32, feed32, Buffered.feed_eq_whole (by norm_num) a,
    Buffered.feed_eq_whole (by norm_num) b, hacc, ← hlen] at heq
  obtain ⟨-, h₂, h₃, -, -⟩ := odd_primes32
  rw [xxh32Finalize, xxh32Finalize, Nat.mod_mod] at heq
  exact keys_eq (Process32.lossless e) hlen (by rw [hsum, Nat.div_add_mod]) hok hbefore hafter
    (xxhAvalanche_injective h₂ h₃ (by norm_num) (by norm_num) (by norm_num) heq)

end Ooops
