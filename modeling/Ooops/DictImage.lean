import Ooops.Basis.Memory
import Ooops.DictRuns

/-!
# The Hash Table in Memory

The elements of the table as they lie in memory: 24 bytes each, the index of the next one, the
value, and the bytes of the key. Nothing separates an element from the one behind it, and both
insertions copy the key before they look at its length, if they do so at all.

The header and the buckets stand in front of the elements, where no key gets to; they stay
numbers.

* `DictImage.Shows` ties a table in memory to the table of the other results,
  `shows_dictCreate` and `shows_insertWith` are the operations.
* `insert_keeps_iff`: for which keys an insertion leaves the other elements alone.
* `spills_of_long`: what a longer key does to the element behind.
-/

open Basis

namespace Ooops

/-- `sizeof(struct elt)`. -/
def eltSize : ℕ := 24

/-- A table whose elements are bytes, the first one at address 0. -/
structure DictImage where
  size : ℕ
  n : ℤ
  firstAv : ℤ
  htTable : ℕ → ℤ
  mem : Memory

/-- What an insertion answers, with what it has printed. -/
structure Inserted where
  table : DictImage
  answer : ℤ
  printed : List String

/-- The message of `DictInsert` about a key that does not fit. -/
def tooLongMessage : String :=
  "ERROR in DictInsert: Hash table key length is not long enough. Overflowed.\n"

namespace DictImage

/-- The element at an index. -/
def elt (t : DictImage) (i : ℕ) : Elt where
  next := t.mem.readInt32 (eltSize * i)
  value := t.mem.readInt32 (eltSize * i + 4)
  key := cstrOf (t.mem.read (eltSize * i + 8) maxNameLen)

/-- The loop of `DictCreate` over the links. -/
def linkUp (mem : Memory) (nSize : ℕ) : Memory :=
  (List.range nSize).foldl (fun mem i => mem.writeInt32 (eltSize * i) (i + 1)) mem

/-- `DictCreate`, with a size. -/
def dictCreate (t : DictImage) (nSize : ℕ) : DictImage where
  size := nSize
  n := 0
  firstAv := 0
  htTable := fun _ => -1
  mem := (linkUp t.mem nSize).writeInt32 (eltSize * (nSize - 1)) (-1)

/-- `strcpy(e->key, key)` and `e->value = value`. -/
def fill (mem : Memory) (e : ℕ) (key : CStr) (value : ℤ) : Memory :=
  (mem.write (eltSize * e + 8) (key ++ [0])).writeInt32 (eltSize * e + 4) value

/-- Fill element `e` and put it at the head of the chain of bucket `h`. -/
def link (t : DictImage) (e h : ℕ) (key : CStr) (value : ℤ) : DictImage :=
  { t with
    n := t.n + 1
    firstAv := (fill t.mem e key value).readInt32 (eltSize * e)
    htTable := Function.update t.htTable h e
    mem := (fill t.mem e key value).writeInt32 (eltSize * e) (t.htTable h) }

/-- What `DictInsert` and `DictInsertAuto` have in common: everything but the message. -/
def insertWith (printed : List String) (hash : CStr → ℕ) (t : DictImage) (key : CStr)
    (value : ℤ) : Except DictError Inserted :=
  if 0 ≤ t.firstAv ∧ t.firstAv < t.size then
    let t' := t.link t.firstAv.toNat (hash key % t.size) key value
    if 4 * (t'.size : ℤ) ≤ 5 * t'.n then .error .full else .ok ⟨t', t.firstAv, printed⟩
  else .error .outside

/-- `DictInsert`. -/
def dictInsert (hash : CStr → ℕ) (t : DictImage) (key : CStr) (value : ℤ) :
    Except DictError Inserted :=
  insertWith (if maxNameLen ≤ key.length then [tooLongMessage] else []) hash t key value

/-- `DictInsertAuto`. -/
def dictInsertAuto (hash : CStr → ℕ) (t : DictImage) (key : CStr) : Except DictError Inserted :=
  insertWith [] hash t key t.firstAv

/-- The table in memory is the table `d`. -/
structure Shows (t : DictImage) (d : Dict) : Prop where
  size_eq : t.size = d.size
  n_eq : t.n = d.n
  firstAv_eq : t.firstAv = d.firstAv
  htTable_eq : ∀ b < d.size, t.htTable b = d.htTable b
  elt_eq : ∀ i < d.size, t.elt i = d.eltList i

/-- An insertion leaves all bytes of the elements that it does not fill, and a key that does not
fit is reported and the table left as it is. -/
structure Keeps (t : DictImage) (key : CStr) (call : Except DictError Inserted) : Prop where
  other : ∀ r, call = .ok r → ∀ i < t.size, (i : ℤ) ≠ t.firstAv →
    r.table.mem.read (eltSize * i) eltSize = t.mem.read (eltSize * i) eltSize
  long : maxNameLen ≤ key.length → ∃ r, call = .ok r ∧ r.printed ≠ [] ∧ r.table = t

end DictImage

/-! ### The bytes of an element -/

namespace DictImage

variable {hash : CStr → ℕ} {t : DictImage} {d : Dict} {e i h : ℕ} {key : CStr} {value : ℤ}

theorem link_mem : (t.link e h key value).mem =
    (fill t.mem e key value).writeInt32 (eltSize * e) (t.htTable h) := rfl

theorem link_htTable : (t.link e h key value).htTable = Function.update t.htTable h e := rfl

/-- Where a key fits, filling an element changes only bytes behind its link. -/
theorem fill_of_outside {mem : Memory} {x : ℕ} (hkey : key.length < maxNameLen)
    (hx : x < eltSize * e + 4 ∨ eltSize * e + eltSize ≤ x) : fill mem e key value x = mem x := by
  have hlen : (key ++ [0]).length ≤ 16 := by
    rw [List.length_append, List.length_singleton]
    exact hkey
  have hsize : eltSize = 24 := rfl
  rw [fill, Memory.writeInt32_of_outside (by omega), Memory.write_of_outside (by omega)]

/-- Where a key fits, all other elements keep their bytes. -/
theorem read_link_of_ne (hkey : key.length < maxNameLen) (hi : i ≠ e) {k n : ℕ}
    (hk : k + n ≤ eltSize) :
    (t.link e h key value).mem.read (eltSize * i + k) n = t.mem.read (eltSize * i + k) n := by
  refine Memory.read_congr fun x hx => ?_
  have hside : eltSize * i + k + x < eltSize * e ∨ eltSize * e + eltSize ≤ eltSize * i + k + x := by
    simp only [eltSize] at hk ⊢
    omega
  have hsize : eltSize = 24 := rfl
  rw [link_mem, Memory.writeInt32_of_outside (by omega), fill_of_outside hkey (by omega)]

/-- Where a key fits, all other elements are left as they are. -/
theorem elt_link_of_ne (hkey : key.length < maxNameLen) (hi : i ≠ e) :
    (t.link e h key value).elt i = t.elt i := by
  have hnext := @read_link_of_ne t e i h key value hkey hi 0 4 (by decide)
  have hvalue := @read_link_of_ne t e i h key value hkey hi 4 4 (by decide)
  have hname := @read_link_of_ne t e i h key value hkey hi 8 maxNameLen (by decide)
  rw [Nat.add_zero] at hnext
  simp only [elt, Memory.readInt32, hnext, hvalue, hname]

/-- The key of an element is read as it was copied. -/
theorem cstrOf_read_fill {mem : Memory} (hkey : key.length < maxNameLen) (hzero : 0 ∉ key) :
    cstrOf ((fill mem e key value).read (eltSize * e + 8) maxNameLen) = key := by
  have hsplit : maxNameLen = (key ++ [0]).length + (15 - key.length) := by
    rw [List.length_append, List.length_singleton]
    simp only [maxNameLen] at hkey ⊢
    omega
  have hread : (fill mem e key value).read (eltSize * e + 8) (key ++ [0]).length = key ++ [0] := by
    refine Eq.trans (Memory.read_congr fun x _ => ?_)
      (Memory.read_write_self mem (eltSize * e + 8) (key ++ [0]))
    exact Memory.writeInt32_of_outside (.inr (by omega))
  have hplain : ∀ c ∈ key, decide (c ≠ 0) = true := fun c hc =>
    decide_eq_true fun h0 : c = 0 => hzero (h0 ▸ hc)
  rw [hsplit, Memory.read_add, hread, cstrOf, List.append_assoc,
    List.takeWhile_append_of_pos hplain, List.singleton_append,
    List.takeWhile_cons_of_neg (by simp), List.append_nil]

/-- The element that is filled. -/
theorem elt_link_self (hkey : key.length < maxNameLen) (hzero : 0 ∉ key) :
    (t.link e h key value).elt e = ⟨wrapInt32 (t.htTable h), wrapInt32 value, key⟩ := by
  have hname : (t.link e h key value).mem.read (eltSize * e + 8) maxNameLen =
      (fill t.mem e key value).read (eltSize * e + 8) maxNameLen :=
    Memory.read_congr fun x _ => Memory.writeInt32_of_outside (.inr (by omega))
  have hvalue : (t.link e h key value).mem.readInt32 (eltSize * e + 4) = wrapInt32 value := by
    refine Eq.trans (Memory.readInt32_congr fun x _ => ?_)
      (Memory.readInt32_writeInt32 (t.mem.write (eltSize * e + 8) (key ++ [0]))
        (eltSize * e + 4) value)
    exact Memory.writeInt32_of_outside (.inr (by omega))
  rw [elt, hname, hvalue, cstrOf_read_fill hkey hzero, link_mem, Memory.readInt32_writeInt32]

/-- The free space goes on behind the element that is filled. -/
theorem link_firstAv (hkey : key.length < maxNameLen) :
    (t.link e h key value).firstAv = (t.elt e).next := by
  simp only [link, elt]
  exact Memory.readInt32_congr fun x hx => fill_of_outside hkey (.inl (by omega))

end DictImage

/-! ### The operations -/

namespace DictImage

variable {hash : CStr → ℕ} {t : DictImage} {d d' : Dict} {chain : ℕ → List ℕ} {free : List ℕ}
  {key : CStr} {value : ℤ}

/-! #### A new table -/

theorem linkUp_succ (mem : Memory) (m : ℕ) :
    linkUp mem (m + 1) = (linkUp mem m).writeInt32 (eltSize * m) (m + 1) := by
  rw [linkUp, List.range_succ, List.foldl_append, ← linkUp]
  rfl

/-- The links are stored. -/
theorem readInt32_linkUp (mem : Memory) {m i : ℕ} (hi : i < m) :
    (linkUp mem m).readInt32 (eltSize * i) = wrapInt32 (i + 1) := by
  have hsize : eltSize = 24 := rfl
  induction m with
  | zero => exact absurd hi (Nat.not_lt_zero i)
  | succ m ih =>
      rw [linkUp_succ]
      by_cases him : i = m
      · rw [him, Memory.readInt32_writeInt32]
      · rw [← ih (by omega)]
        exact Memory.readInt32_congr fun x hx =>
          Memory.writeInt32_of_outside (by rw [hsize]; omega)

/-- Nothing but links is stored. -/
theorem linkUp_apply (mem : Memory) (m i : ℕ) {k : ℕ} (hk : 4 ≤ k) (hlt : k < eltSize) :
    linkUp mem m (eltSize * i + k) = mem (eltSize * i + k) := by
  have hsize : eltSize = 24 := rfl
  rw [hsize] at hlt
  induction m with
  | zero => rfl
  | succ m ih => rw [linkUp_succ, Memory.writeInt32_of_outside (by rw [hsize]; omega), ih]

/-- `DictCreate` makes the new table of the other results. -/
theorem shows_dictCreate (t : DictImage) {nSize : ℕ} (hpos : 0 < nSize) (hint : nSize < 2 ^ 31) :
    (t.dictCreate nSize).Shows
      (Ooops.dictCreate ⟨t.size, t.n, t.firstAv, t.htTable, t.elt⟩ nSize) := by
  have hsize : eltSize = 24 := rfl
  rw [Ooops.dictCreate, if_neg (by omega)]
  refine ⟨rfl, rfl, rfl, fun _ _ => rfl, fun i hi => ?_⟩
  have hi' : i < nSize := hi
  have hrest {k : ℕ} (hk : 4 ≤ k) (hlt : k < eltSize) :
      (t.dictCreate nSize).mem (eltSize * i + k) = t.mem (eltSize * i + k) := by
    rw [hsize] at hlt
    rw [← linkUp_apply t.mem nSize i hk (hsize.symm ▸ hlt)]
    exact Memory.writeInt32_of_outside (by rw [hsize]; omega)
  have hnext : (t.dictCreate nSize).mem.readInt32 (eltSize * i) =
      if i + 1 = nSize then -1 else (i : ℤ) + 1 := by
    by_cases hlast : i + 1 = nSize
    · have haddr : nSize - 1 = i := by omega
      rw [if_pos hlast, dictCreate, haddr, Memory.readInt32_writeInt32]
      exact wrapInt32_eq_self (by norm_num) (by norm_num)
    · rw [if_neg hlast, ← wrapInt32_eq_self (x := (i : ℤ) + 1) (by omega) (by omega),
        ← readInt32_linkUp t.mem hi']
      exact Memory.readInt32_congr fun x hx =>
          Memory.writeInt32_of_outside (by rw [hsize]; omega)
  have hvalue : (t.dictCreate nSize).mem.readInt32 (eltSize * i + 4) =
      t.mem.readInt32 (eltSize * i + 4) :=
    Memory.readInt32_congr fun x hx => by
      rw [Nat.add_assoc]
      exact hrest (by omega) (by rw [hsize]; omega)
  have hkey : (t.dictCreate nSize).mem.read (eltSize * i + 8) maxNameLen =
      t.mem.read (eltSize * i + 8) maxNameLen :=
    Memory.read_congr fun x hx => by
      have hx' : x < 16 := hx
      rw [Nat.add_assoc]
      exact hrest (by omega) (by rw [hsize]; omega)
  simp only [elt, hnext, hvalue, hkey]

/-! #### Insertions -/

/-- What an insertion does where the table has a free element. -/
theorem insertWith_eq {e : ℕ} (hfirst : t.firstAv = e) (he : e < t.size) (printed : List String)
    (hash : CStr → ℕ) (key : CStr) (value : ℤ) :
    insertWith printed hash t key value =
      if 4 * (t.size : ℤ) ≤ 5 * (t.n + 1) then .error .full
      else .ok ⟨t.link e (hash key % t.size) key value, t.firstAv, printed⟩ := by
  rw [insertWith, if_pos (by omega)]
  simp only [hfirst, Int.toNat_natCast]
  rfl

/-- The first element of a bucket is an `int`. -/
theorem wrapInt32_htTable (hd : Dict.Chained hash d chain free) (hint : d.size < 2 ^ 31) {b : ℕ}
    (hb : b < d.size) : wrapInt32 (d.htTable b) = d.htTable b := by
  by_cases hend : d.htTable b = -1
  · rw [hend]
    exact wrapInt32_eq_self (by norm_num) (by norm_num)
  · obtain ⟨e, l, hl, hhead, -⟩ := (hd.chain_linked b hb).exists_cons hend
    have he : e ∈ chain b := hl ▸ List.mem_cons_self
    have hlt : e < d.size := hd.lt_size (List.mem_append_left _ (Dict.Chained.mem_used hb he))
    rw [hhead]
    exact wrapInt32_eq_self (by omega) (by omega)

/-- A key that fits is stored as in the table of the other results. -/
theorem shows_insertWith (hd : Dict.Chained hash d chain free) (hint : d.size < 2 ^ 31)
    (ht : t.Shows d) (hzero : 0 ∉ key) (hvalue : wrapInt32 value = value) {e : ℤ}
    (hins : Ooops.dictInsert hash d key value = .ok (d', e)) (printed : List String) :
    ∃ t', insertWith printed hash t key value = .ok ⟨t', e, printed⟩ ∧ t'.Shows d' := by
  obtain ⟨hkey, hroom⟩ := fits_of_dictInsert hd hins
  obtain ⟨i, free', rfl, hfirst, -⟩ := hd.exists_free
  have hi : i < d.size := hd.lt_size (List.mem_append_right _ List.mem_cons_self)
  have hb := hd.bucket_lt key
  rw [dictInsert_eq hfirst hi, if_neg (Nat.not_le.mpr hkey), if_neg (Int.not_le.mpr hroom)] at hins
  obtain ⟨rfl, rfl⟩ := Prod.mk.inj (Except.ok.inj hins)
  rw [insertWith_eq (ht.firstAv_eq.trans hfirst) (ht.size_eq ▸ hi), ht.size_eq, ht.n_eq,
    if_neg (by omega), ht.firstAv_eq]
  refine ⟨_, rfl, ht.size_eq, ?_, ?_, fun b hb' => ?_, fun j hj => ?_⟩
  · rw [link, Dict.link_n, ht.n_eq]
  · rw [link_firstAv hkey, ht.elt_eq i hi]
    rfl
  · by_cases hbh : b = hash key % d.size
    · rw [hbh, Dict.link_htTable, link_htTable, Function.update_self, Function.update_self]
    · rw [Dict.link_htTable, link_htTable, Function.update_of_ne hbh, Function.update_of_ne hbh,
        ht.htTable_eq b hb']
  · by_cases hji : j = i
    · rw [hji, elt_link_self hkey hzero, Dict.link_eltList_self, hvalue, ht.htTable_eq _ hb,
        wrapInt32_htTable hd hint hb]
    · rw [elt_link_of_ne hkey hji, Dict.link_eltList_of_ne hji, ht.elt_eq j hj]

/-- An insertion of a key that fits leaves the other elements alone. -/
theorem keeps_of_fits {e : ℕ} (hfirst : t.firstAv = e) (he : e < t.size)
    (hkey : key.length < maxNameLen) (printed : List String) (hash : CStr → ℕ) (value : ℤ) :
    t.Keeps key (insertWith printed hash t key value) where
  other := fun r hr i _ hne => by
    rw [insertWith_eq hfirst he] at hr
    split_ifs at hr
    obtain rfl := Except.ok.inj hr
    have hie : i ≠ e := fun h => hne (h ▸ hfirst.symm)
    exact read_link_of_ne hkey hie (Nat.le_of_eq (Nat.zero_add _))
  long := fun hlong => absurd hlong (Nat.not_le.mpr hkey)

/-- No insertion leaves the table as it is. -/
theorem not_keeps_of_long {e : ℕ} (hfirst : t.firstAv = e) (he : e < t.size)
    (hlong : maxNameLen ≤ key.length) (printed : List String) (hash : CStr → ℕ) (value : ℤ) :
    ¬t.Keeps key (insertWith printed hash t key value) := by
  intro hkeeps
  obtain ⟨r, hr, -, hsame⟩ := hkeeps.long hlong
  rw [insertWith_eq hfirst he] at hr
  split_ifs at hr
  obtain rfl := Except.ok.inj hr
  have hn : t.n + 1 = t.n := congrArg DictImage.n hsame
  omega

/-- A longer key goes on into the link of the element behind. -/
theorem spills_of_long {e : ℕ} (hlong : maxNameLen ≤ key.length) (h : ℕ) :
    (t.link e h key value).mem (eltSize * (e + 1)) = (key[maxNameLen]?).getD 0 := by
  have hsize : eltSize = 24 := rfl
  have hname : maxNameLen = 16 := rfl
  have hlt : maxNameLen < (key ++ [0]).length := by
    rw [List.length_append, List.length_singleton]
    omega
  have haddr : eltSize * (e + 1) = eltSize * e + 8 + maxNameLen := by
    rw [hsize, hname]
    omega
  rw [link_mem, Memory.writeInt32_of_outside (by omega), fill,
    Memory.writeInt32_of_outside (by omega), haddr, Memory.write_add _ _ hlt]
  rcases Nat.lt_or_eq_of_le hlong with h' | h'
  · rw [List.getElem_append_left h', List.getElem?_eq_getElem h', Option.getD_some]
  · rw [List.getElem_append_right (Nat.le_of_eq h'.symm),
      List.getElem?_eq_none (Nat.le_of_eq h'.symm), Option.getD_none, List.getElem_singleton]

/-- **Keys and elements.** In every table that calls on a new one have led to, as it lies in memory,
both insertions leave all other elements as they are and refuse a key that does not fit exactly
if the key fits. -/
theorem insert_keeps_iff (d₀ : Dict) {nSize : ℕ} (hpos : 0 < nSize) {ops : List DictOp}
    {rs : List (Option ℤ)} (hrun : dictRun hash (Ooops.dictCreate d₀ nSize) ops = .ok (d, rs))
    (ht : t.Shows d) (key : CStr) (value : ℤ) :
    t.Keeps key (dictInsert hash t key value) ∧ t.Keeps key (dictInsertAuto hash t key) ↔
      key.length < maxNameLen := by
  obtain ⟨chain₀, free₀, hnew, -⟩ := @represents_dictCreate hash d₀ nSize hpos
  obtain ⟨chain, free, hd⟩ := chained_dictRun hnew hrun
  obtain ⟨e, free', rfl, hfirst, -⟩ := hd.exists_free
  have he : e < d.size := hd.lt_size (List.mem_append_right _ List.mem_cons_self)
  have hfirst' : t.firstAv = e := ht.firstAv_eq.trans hfirst
  have he' : e < t.size := ht.size_eq ▸ he
  constructor
  · rintro ⟨hkeeps, -⟩
    by_contra hlong
    exact not_keeps_of_long hfirst' he' (Nat.not_lt.mp hlong) _ hash value hkeeps
  · intro hkey
    exact ⟨keeps_of_fits hfirst' he' hkey _ hash value,
      keeps_of_fits hfirst' he' hkey _ hash t.firstAv⟩

/-- A new table of ten elements in cleared memory. -/
def sample : DictImage := dictCreate ⟨0, 0, 0, fun _ => 0, fun _ => 0⟩ 10

/-- A name of 16 bytes. -/
def longName : CStr := List.replicate 16 97

/-- A key of 15 bytes fits a table of two records in one bucket. -/
theorem insert_keeps_filled :
    ∃ r r', dictInsertAuto List.length sample (bytesOf "n0") = .ok r ∧
      dictInsert List.length r.table (bytesOf "n1") 5 = .ok r' ∧
      (r'.table.Keeps (longName.take 15) (dictInsert List.length r'.table (longName.take 15) 7) ∧
          r'.table.Keeps (longName.take 15)
            (dictInsertAuto List.length r'.table (longName.take 15)) ↔
        (longName.take 15).length < maxNameLen) := by
  have hnew := shows_dictCreate ⟨0, 0, 0, fun _ => 0, fun _ => 0⟩ (by decide : 0 < 10) (by decide)
  obtain ⟨chain, free, hd, -⟩ := @represents_dictCreate List.length
    ⟨0, 0, 0, fun _ => 0, elt ⟨0, 0, 0, fun _ => 0, fun _ => 0⟩⟩ 10 (by decide)
  obtain ⟨t₁, hcall₁, ht₁⟩ := shows_insertWith hd (by decide) hnew
    (by decide : 0 ∉ bytesOf "n0") (by decide : wrapInt32 0 = 0) rfl []
  obtain ⟨chain₁, free₁, hd₁⟩ := chained_dictRun hd
    (rfl : dictRun List.length _ [.insertAuto (bytesOf "n0")] = .ok (_, _))
  obtain ⟨t₂, hcall₂, ht₂⟩ := shows_insertWith hd₁ (by decide) ht₁
    (by decide : 0 ∉ bytesOf "n1") (by decide : wrapInt32 5 = 5) rfl []
  refine ⟨_, _, hcall₁, hcall₂, ?_⟩
  exact insert_keeps_iff _ (by decide : 0 < 10)
    (rfl : dictRun List.length _ [.insertAuto (bytesOf "n0"), .insert (bytesOf "n1") 5] =
      .ok (_, _)) ht₂ _ 7

/-- A sixteenth byte is followed by a NUL that falls into the link of the second element, which
then leads back to the first one. `DictInsertAuto` prints nothing. -/
theorem longName_spills :
    ∃ r r', dictInsert List.length sample longName 7 = .ok r ∧
      dictInsertAuto List.length sample longName = .ok r' ∧ r'.printed = [] ∧
      (sample.elt 1).next = 2 ∧ (r.table.elt 1).next = 0 ∧ (r'.table.elt 1).next = 0 ∧
      ¬sample.Keeps longName (dictInsert List.length sample longName 7) ∧
      ¬sample.Keeps longName (dictInsertAuto List.length sample longName) := by
  refine ⟨_, _, rfl, rfl, rfl, by decide +kernel, by decide +kernel, by decide +kernel, ?_, ?_⟩
  · exact @not_keeps_of_long sample longName 0 rfl (by decide) (by decide) _ List.length 7
  · exact @not_keeps_of_long sample longName 0 rfl (by decide) (by decide) _ List.length _

end DictImage

end Ooops
