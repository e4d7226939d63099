import Mathlib.Data.List.Basic

/-!
# Consuming in Blocks

A consumer that works in blocks of `n` items and is handed its input in pieces of any size:
it holds back the items of the block that is not full yet. `feed` hands it the items one by
one, so that how the input is cut does not matter (`feed_flatten`). What a program does
instead is to fill up the block it holds back and then to go through the whole blocks of
the piece; the lemmas below say that each of these steps is a `feed`.

* `feed_of_lt`, `feed_of_eq`, `feed_block`: a piece that does not fill the block, one that
  fills it, and a whole block.
* `blockLoop_eq_feed`: the loop over the whole blocks of a piece.
* `length_held_feed`, `feed_eq_whole`: how much is held back, and what.
-/

namespace Basis

variable {σ α : Type}

/-- What the consumer has made of the whole blocks, and the items it holds back. -/
structure Buffered (σ α : Type) where
  acc : σ
  held : List α

namespace Buffered

variable (n : ℕ) (f : σ → List α → σ)

/-- One more item. -/
def push (s : Buffered σ α) (b : α) : Buffered σ α :=
  if s.held.length + 1 = n then ⟨f s.acc (s.held ++ [b]), []⟩ else ⟨s.acc, s.held ++ [b]⟩

/-- More items. -/
def feed (s : Buffered σ α) (bs : List α) : Buffered σ α := bs.foldl (push n f) s

@[simp] theorem feed_nil (s : Buffered σ α) : feed n f s [] = s := rfl

theorem feed_cons (s : Buffered σ α) (b : α) (bs : List α) :
    feed n f s (b :: bs) = feed n f (push n f s b) bs := rfl

theorem feed_append (s : Buffered σ α) (bs cs : List α) :
    feed n f s (bs ++ cs) = feed n f (feed n f s bs) cs := List.foldl_append

/-- How the input is cut does not matter. -/
theorem feed_flatten (s : Buffered σ α) (pieces : List (List α)) :
    feed n f s pieces.flatten = pieces.foldl (feed n f) s := by
  induction pieces generalizing s with
  | nil => rfl
  | cons bs pieces ih => rw [List.flatten_cons, feed_append, ih, List.foldl_cons]

variable {n f}

/-- Items that do not fill the block are held back. -/
theorem feed_of_lt {a : σ} {held bs : List α} (h : held.length + bs.length < n) :
    feed n f ⟨a, held⟩ bs = ⟨a, held ++ bs⟩ := by
  induction bs generalizing held with
  | nil => rw [feed_nil, List.append_nil]
  | cons b bs ih =>
      rw [List.length_cons] at h
      have hpush : push n f ⟨a, held⟩ b = ⟨a, held ++ [b]⟩ := if_neg (by dsimp only; omega)
      have hrest := @ih (held ++ [b]) (by rw [List.length_append, List.length_singleton]; omega)
      rw [feed_cons, hpush, hrest, List.append_assoc, List.singleton_append]

/-- Items that fill the block are consumed with it. -/
theorem feed_of_eq {a : σ} {held bs : List α} (hheld : held.length < n)
    (h : held.length + bs.length = n) : feed n f ⟨a, held⟩ bs = ⟨f a (held ++ bs), []⟩ := by
  obtain rfl | ⟨init, b, rfl⟩ := List.eq_nil_or_concat' bs
  · rw [List.length_nil] at h
    omega
  · rw [List.length_append, List.length_singleton] at h
    have hpush : push n f ⟨a, held ++ init⟩ b = ⟨f a (held ++ init ++ [b]), []⟩ :=
      if_pos (by rw [List.length_append]; omega)
    have hinit : feed n f ⟨a, held⟩ init = ⟨a, held ++ init⟩ := feed_of_lt (by omega)
    rw [feed_append, hinit, feed_cons, feed_nil, hpush, List.append_assoc]

/-- A whole block. -/
theorem feed_block {a : σ} {blk rest : List α} (hn : 0 < n) (h : blk.length = n) :
    feed n f ⟨a, []⟩ (blk ++ rest) = feed n f ⟨f a blk, []⟩ rest := by
  have hblk : feed n f ⟨a, []⟩ blk = ⟨f a blk, []⟩ :=
    feed_of_eq hn (by rwa [List.length_nil, Nat.zero_add])
  rw [feed_append, hblk]

/-- What is held back is always less than a block. -/
theorem length_held_feed {s : Buffered σ α} {bs : List α} (h : s.held.length < n) :
    (feed n f s bs).held.length = (s.held.length + bs.length) % n := by
  induction bs generalizing s with
  | nil => rw [feed_nil, List.length_nil, Nat.add_zero, Nat.mod_eq_of_lt h]
  | cons b bs ih =>
      rw [feed_cons, List.length_cons]
      by_cases hfull : s.held.length + 1 = n
      · have hpush : push n f s b = ⟨f s.acc (s.held ++ [b]), []⟩ := if_pos hfull
        rw [hpush, ih (by dsimp only [List.length_nil]; omega), List.length_nil, Nat.zero_add,
          show s.held.length + (bs.length + 1) = bs.length + n by omega, Nat.add_mod_right]
      · have hpush : push n f s b = ⟨s.acc, s.held ++ [b]⟩ := if_neg hfull
        have hlen : (s.held ++ [b]).length = s.held.length + 1 := by
          rw [List.length_append, List.length_singleton]
        rw [hpush, ih (by rw [hlen]; omega), hlen]
        congr 1
        omega

/-- The whole blocks are consumed and the rest is held back. -/
theorem feed_eq_whole {a : σ} (hn : 0 < n) (bs : List α) :
    feed n f ⟨a, []⟩ bs =
      ⟨(feed n f ⟨a, []⟩ (bs.take (n * (bs.length / n)))).acc, bs.drop (n * (bs.length / n))⟩ := by
  set m := n * (bs.length / n) with hm
  have hle : m ≤ bs.length := Nat.mul_div_le _ _
  have hwhole : feed n f ⟨a, []⟩ (bs.take m) = ⟨(feed n f ⟨a, []⟩ (bs.take m)).acc, []⟩ := by
    have hlen : (feed n f ⟨a, []⟩ (bs.take m)).held.length = (0 + (bs.take m).length) % n :=
      length_held_feed hn
    rw [Nat.zero_add, List.length_take_of_le hle, hm, Nat.mul_mod_right, ← hm] at hlen
    exact congrArg (Buffered.mk _) (List.eq_nil_of_length_eq_zero hlen)
  have hrest : (bs.drop m).length < n := by
    have hdiv := Nat.div_add_mod bs.length n
    have hlt := Nat.mod_lt bs.length hn
    rw [List.length_drop]
    omega
  conv => lhs; rw [← List.take_append_drop m bs]
  rw [feed_append, hwhole]
  exact feed_of_lt (by rwa [List.length_nil, Nat.zero_add])

/-- Consumers that agree on whole blocks agree. -/
theorem feed_congr {g : σ → List α → σ} {s : Buffered σ α}
    (hfg : ∀ a blk, blk.length = n → f a blk = g a blk) (bs : List α) :
    feed n f s bs = feed n g s bs := by
  induction bs generalizing s with
  | nil => rfl
  | cons b bs ih =>
      have hpush : push n f s b = push n g s b := by
        unfold push
        split
        · rw [hfg _ _ (by rwa [List.length_append, List.length_singleton])]
        · rfl
      rw [feed_cons, feed_cons, hpush, ih]

end Buffered

/-- The loop over the whole blocks of a piece, entered when there is one: it takes a block and
goes on while there is another. -/
def blockLoop (n : ℕ) (f : σ → List α → σ) : ℕ → σ → List α → σ × List α
  | 0, a, p => (a, p)
  | fuel + 1, a, p =>
    if n ≤ (p.drop n).length then blockLoop n f fuel (f a (p.take n)) (p.drop n)
    else (f a (p.take n), p.drop n)

/-- The loop feeds the consumer with the piece. -/
theorem blockLoop_eq_feed {n : ℕ} {f : σ → List α → σ} {fuel : ℕ} {a : σ} {p : List α}
    (hn : 0 < n) (hp : n ≤ p.length) (hfuel : p.length ≤ fuel) :
    Buffered.feed n f ⟨a, []⟩ p =
      ⟨(blockLoop n f fuel a p).1, (blockLoop n f fuel a p).2⟩ := by
  induction fuel generalizing a p with
  | zero => omega
  | succ fuel ih =>
      have hblock : Buffered.feed n f ⟨a, []⟩ p =
          Buffered.feed n f ⟨f a (p.take n), []⟩ (p.drop n) := by
        conv => lhs; rw [← List.take_append_drop n p]
        exact Buffered.feed_block hn (List.length_take_of_le hp)
      rw [hblock, blockLoop]
      split
      · rename_i hmore
        exact ih hmore (by rw [List.length_drop]; omega)
      · rename_i hlast
        exact Buffered.feed_of_lt (by rw [List.length_nil]; omega)

end Basis
