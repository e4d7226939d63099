import Ooops.Basis.Memory

/-!
# Records in Memory

A record has fields at fixed distances from its address, no two of which share a byte. A store
into a field therefore leaves all others as they are, and a program that only stores into fields
can be followed field by field.

* `Layout` says where the fields are, `Layout.load` and `Layout.put` access them.
* `load_put` is what a store does to a field, `load_foldl` what a loop does in which every
  field belongs to one index.
-/

namespace Basis

/-- The offsets and sizes of the fields of a record, which do not overlap. -/
structure Layout (φ : Type*) where
  offset : φ → ℕ
  size : φ → ℕ
  apart : ∀ f g, f ≠ g → offset f + size f ≤ offset g ∨ offset g + size g ≤ offset f

namespace Layout

variable {φ ι : Type*} (L : Layout φ)

/-- The bytes of a field of the record at `a`. -/
def load (m : Memory) (a : ℕ) (f : φ) : List UInt8 := m.read (a + L.offset f) (L.size f)

/-- Store bytes at the beginning of a field. -/
def put (a : ℕ) (f : φ) (bs : List UInt8) (m : Memory) : Memory := m.write (a + L.offset f) bs

variable {L}

@[simp] theorem length_load (m : Memory) (a : ℕ) (f : φ) : (L.load m a f).length = L.size f :=
  Memory.length_read _ _ _

/-- The field that is stored into begins with the bytes. -/
theorem load_put_self {f : φ} {bs : List UInt8} (h : bs.length ≤ L.size f) (a : ℕ) (m : Memory) :
    L.load (L.put a f bs m) a f = bs ++ (L.load m a f).drop bs.length := by
  have hsize : L.size f = bs.length + (L.size f - bs.length) := by omega
  rw [load, load, put, hsize, Memory.read_add, Memory.read_write_self, Memory.read_add,
    List.drop_append_of_le_length (by simp), List.drop_of_length_le (by simp), List.nil_append]
  congr 1
  exact Memory.read_write_of_disjoint (.inr le_rfl)

/-- The other fields stay as they are. -/
theorem load_put_of_ne {f g : φ} {bs : List UInt8} (hne : g ≠ f) (h : bs.length ≤ L.size f)
    (a : ℕ) (m : Memory) : L.load (L.put a f bs m) a g = L.load m a g := by
  have hapart := L.apart g f hne
  exact Memory.read_write_of_disjoint (by omega)

/-- **A store** into a field. -/
theorem load_put [DecidableEq φ] {f : φ} {bs : List UInt8} (h : bs.length ≤ L.size f) (a : ℕ)
    (m : Memory) (g : φ) :
    L.load (L.put a f bs m) a g =
      if g = f then bs ++ (L.load m a g).drop bs.length else L.load m a g := by
  split_ifs with hg
  · rw [hg, load_put_self h]
  · exact load_put_of_ne hg h a m

/-- A field that is filled. -/
theorem load_put_full [DecidableEq φ] {f : φ} {bs : List UInt8} (h : bs.length = L.size f)
    (a : ℕ) (m : Memory) (g : φ) :
    L.load (L.put a f bs m) a g = if g = f then bs else L.load m a g := by
  rw [load_put h.le]
  split_ifs with hg
  · rw [hg, List.drop_of_length_le (by rw [length_load, h]), List.append_nil]
  · rfl

/-- **A loop** that stores into the fields of one index after the other. -/
theorem load_foldl [DecidableEq ι] (step : Memory → ι → Memory) (owner : φ → Option ι)
    (change : ι → φ → List UInt8 → List UInt8) {a : ℕ} {l : List ι}
    (hstep : ∀ i ∈ l, ∀ m f, L.load (step m i) a f =
      if owner f = some i then change i f (L.load m a f) else L.load m a f)
    (hl : l.Nodup) (m : Memory) (f : φ) :
    L.load (l.foldl step m) a f =
      match owner f with
      | some i => if i ∈ l then change i f (L.load m a f) else L.load m a f
      | none => L.load m a f := by
  induction l generalizing m with
  | nil => cases owner f <;> simp
  | cons j l ih =>
      obtain ⟨hj, hrest⟩ := List.nodup_cons.mp hl
      rw [List.foldl_cons, ih (fun i hi => hstep i (List.mem_cons_of_mem j hi)) hrest,
        hstep j (List.mem_cons_self ..)]
      cases hf : owner f with
      | none => simp
      | some i =>
          by_cases hij : i = j
          · subst hij
            simp [hj]
          · simp [hij]

/-! ### What lies outside -/

/-- A store into a field of a record of `n` bytes changes nothing else. -/
theorem put_of_outside {f : φ} {bs : List UInt8} {n : ℕ} (hend : L.offset f + L.size f ≤ n)
    (h : bs.length ≤ L.size f) {a x : ℕ} (hx : x < a ∨ a + n ≤ x) (m : Memory) :
    L.put a f bs m x = m x :=
  Memory.write_of_outside (by omega)

end Layout

/-- A loop leaves alone what all of its steps leave alone. -/
theorem Memory.foldl_of_outside {ι : Type*} {step : Memory → ι → Memory} {x : ℕ} {l : List ι}
    (hstep : ∀ i ∈ l, ∀ m, step m i x = m x) (m : Memory) : l.foldl step m x = m x := by
  induction l generalizing m with
  | nil => rfl
  | cons i l ih =>
      rw [List.foldl_cons, ih fun j hj => hstep j (List.mem_cons_of_mem i hj)]
      exact hstep i (List.mem_cons_self ..) m

end Basis
