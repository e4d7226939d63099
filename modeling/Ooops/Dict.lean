import Ooops.Basis.CString
import Ooops.Basis.Linked

/-!
# The Hash Table

The daemon looks ranks up in a table of its own: an array of elements, each with the index
of the next one, and an array with the index of the first element of every bucket. Elements
not in use form a list of their own that starts at `first_av`. The hash function is a
parameter; the load test `n >= size * 0.80` is read in exact arithmetic.

* `Dict.Chained` is the shape of a table: the chains of the buckets and the free list share
  out the elements, and every record is in the chain of its key.
* `Dict.Represents` says what a table is for: it holds a stack of values for every key.
* `represents_dictCreate`, `represents_dictInsert`, `represents_dictDelete` and
  `dictSearch_eq`: the operations on the table are the operations on the stacks.
-/

open Basis

namespace Ooops

/-- `MAX_NAME_LEN`: the bytes of a key with its terminating NUL. -/
def maxNameLen : ℕ := 16

/-- `struct elt`. -/
structure Elt where
  next : ℤ
  value : ℤ
  key : CStr
  deriving DecidableEq, Repr

/-- `struct dict` with the two arrays behind it. -/
structure Dict where
  size : ℕ
  n : ℤ
  firstAv : ℤ
  htTable : ℕ → ℤ
  eltList : ℕ → Elt

/-- How a call on a table can go wrong. -/
inductive DictError
  /-- The exit with "Hash table is FULL." -/
  | full
  /-- The key does not fit `e->key`. -/
  | keyOverflow
  /-- An index that is none of the array's. -/
  | outside
  /-- A chain that never ends. -/
  | endless
  deriving DecidableEq, Repr

namespace Dict

/-- The links of the elements. -/
def next (d : Dict) (i : ℕ) : ℤ := (d.eltList i).next

/-- The access `elt_list[idx]`. -/
def slot (d : Dict) (idx : ℤ) : Except DictError ℕ :=
  if 0 ≤ idx ∧ idx < d.size then .ok idx.toNat else .error .outside

/-- Fill the first free element, `e`, and put it at the head of the chain of bucket `h`. -/
def link (d : Dict) (e h : ℕ) (key : CStr) (value : ℤ) : Dict :=
  { d with
    n := d.n + 1
    firstAv := d.next e
    htTable := Function.update d.htTable h e
    eltList := Function.update d.eltList e ⟨d.htTable h, value, key⟩ }

/-- Let element `e` be followed by `idx`. -/
def setNext (d : Dict) (e : ℕ) (idx : ℤ) : Dict :=
  { d with eltList := Function.update d.eltList e { d.eltList e with next := idx } }

/-- Put element `e` back as the beginning of the free space. -/
def release (d : Dict) (e : ℕ) : Dict :=
  { d.setNext e d.firstAv with n := d.n - 1, firstAv := e }

/-- The loop of `DictSearch` from element `idx` on. More rounds than the table has elements
come back to an element already seen. -/
def searchFrom (d : Dict) (key : CStr) : ℕ → ℤ → Except DictError ℤ
  | 0, _ => .error .endless
  | fuel + 1, idx => do
      let e ← d.slot idx
      if (d.eltList e).key = key then return (d.eltList e).value
      else if d.next e = -1 then return -1
      else d.searchFrom key fuel (d.next e)

/-- The loop of `DictDelete`, behind an element `idx` of another key. -/
def deleteFrom (d : Dict) (key : CStr) : ℕ → ℕ → Except DictError Dict
  | 0, _ => .error .endless
  | fuel + 1, idx =>
      if d.next idx = -1 then .ok d
      else do
        let e ← d.slot (d.next idx)
        if (d.eltList e).key = key then return (d.setNext idx (d.next e)).release e
        else d.deleteFrom key fuel e

end Dict

/-- `DictCreate`, over whatever the memory holds. -/
def dictCreate (d : Dict) (nSize : ℕ) : Dict :=
  if nSize = 0 then d
  else
    { size := nSize
      n := 0
      firstAv := 0
      htTable := fun _ => -1
      eltList := fun i =>
        { d.eltList i with next := if i + 1 = nSize then -1 else (i : ℤ) + 1 } }

/-- `DictInsert`, which answers with the element that holds the record. -/
def dictInsert (hash : CStr → ℕ) (d : Dict) (key : CStr) (value : ℤ) :
    Except DictError (Dict × ℤ) := do
  let e ← d.slot d.firstAv
  if maxNameLen ≤ key.length then throw .keyOverflow
  let d' := d.link e (hash key % d.size) key value
  if 4 * (d'.size : ℤ) ≤ 5 * d'.n then throw .full
  return (d', d.firstAv)

/-- `DictInsertAuto`: the value is the element that holds the record. -/
def dictInsertAuto (hash : CStr → ℕ) (d : Dict) (key : CStr) : Except DictError (Dict × ℤ) :=
  dictInsert hash d key d.firstAv

/-- `DictDelete`. -/
def dictDelete (hash : CStr → ℕ) (d : Dict) (key : CStr) : Except DictError Dict := do
  let h := hash key % d.size
  let idx ← d.slot (d.htTable h)
  if (d.eltList idx).key = key then
    return { d with htTable := Function.update d.htTable h (d.next idx) }.release idx
  else d.deleteFrom key d.size idx

/-- `DictSearch`. -/
def dictSearch (hash : CStr → ℕ) (d : Dict) (key : CStr) : Except DictError ℤ :=
  if d.n = 0 then return -1
  else
    let idx := d.htTable (hash key % d.size)
    if idx = -1 then return -1 else d.searchFrom key d.size idx

/-! ## The shape of a table -/

namespace Dict

variable {hash : CStr → ℕ} {d : Dict} {chain : ℕ → List ℕ} {free : List ℕ} {key : CStr}
  {value : ℤ}

/-- The elements in use, bucket by bucket. -/
def used (d : Dict) (chain : ℕ → List ℕ) : List ℕ := (List.range d.size).flatMap chain

/-- The chains of the buckets and the free list share out the elements, every record is in
the chain of its key, and the table is not too full. -/
structure Chained (hash : CStr → ℕ) (d : Dict) (chain : ℕ → List ℕ) (free : List ℕ) :
    Prop where
  chain_linked : ∀ b < d.size, Linked d.next (d.htTable b) (chain b)
  free_linked : Linked d.next d.firstAv free
  parts : (d.used chain ++ free).Perm (List.range d.size)
  home : ∀ b < d.size, ∀ e ∈ chain b, hash (d.eltList e).key % d.size = b
  count : d.n = (d.used chain).length
  room : 5 * d.n < 4 * d.size

/-- The values of a key, the most recent one first. -/
def stack (hash : CStr → ℕ) (d : Dict) (chain : ℕ → List ℕ) (key : CStr) : List ℤ :=
  ((chain (hash key % d.size)).filter fun e => (d.eltList e).key = key).map fun e =>
    (d.eltList e).value

/-- What a table is for: it holds the stack `σ key` of values for every key. -/
def Represents (hash : CStr → ℕ) (d : Dict) (σ : CStr → List ℤ) : Prop :=
  ∃ chain free, Chained hash d chain free ∧ ∀ key, d.stack hash chain key = σ key

theorem slot_eq {i : ℕ} (hi : i < d.size) : d.slot (i : ℤ) = .ok i := by
  rw [slot, if_pos ⟨by omega, by omega⟩, Int.toNat_natCast]

@[simp] theorem link_size {e h : ℕ} : (d.link e h key value).size = d.size := rfl

@[simp] theorem link_n {e h : ℕ} : (d.link e h key value).n = d.n + 1 := rfl

/-- The new record. -/
theorem link_eltList_self {e h : ℕ} :
    (d.link e h key value).eltList e = ⟨d.htTable h, value, key⟩ :=
  Function.update_self ..

/-- All other elements are left as they are. -/
theorem link_eltList_of_ne {e h i : ℕ} (hi : i ≠ e) :
    (d.link e h key value).eltList i = d.eltList i :=
  Function.update_of_ne hi ..

theorem link_htTable {e h : ℕ} :
    (d.link e h key value).htTable = Function.update d.htTable h e := rfl

theorem link_next {e h : ℕ} :
    (d.link e h key value).next = Function.update d.next e (d.htTable h) := by
  funext i
  by_cases hi : i = e
  · subst hi
    rw [next, link_eltList_self, Function.update_self]
  · rw [next, link_eltList_of_ne hi, Function.update_of_ne hi, next]

@[simp] theorem setNext_size {e : ℕ} {idx : ℤ} : (d.setNext e idx).size = d.size := rfl

@[simp] theorem setNext_htTable {e : ℕ} {idx : ℤ} : (d.setNext e idx).htTable = d.htTable := rfl

@[simp] theorem setNext_firstAv {e : ℕ} {idx : ℤ} : (d.setNext e idx).firstAv = d.firstAv := rfl

@[simp] theorem setNext_n {e : ℕ} {idx : ℤ} : (d.setNext e idx).n = d.n := rfl

theorem setNext_next {e : ℕ} {idx : ℤ} :
    (d.setNext e idx).next = Function.update d.next e idx := by
  funext i
  rw [next, setNext]
  by_cases hi : i = e
  · subst hi
    simp only [Function.update_self]
  · simp only [Function.update_of_ne hi, next]

/-- A link is no part of a record. -/
@[simp] theorem setNext_key {e i : ℕ} {idx : ℤ} :
    ((d.setNext e idx).eltList i).key = (d.eltList i).key := by
  rw [setNext]
  by_cases hi : i = e
  · subst hi
    simp only [Function.update_self]
  · simp only [Function.update_of_ne hi]

@[simp] theorem setNext_value {e i : ℕ} {idx : ℤ} :
    ((d.setNext e idx).eltList i).value = (d.eltList i).value := by
  rw [setNext]
  by_cases hi : i = e
  · subst hi
    simp only [Function.update_self]
  · simp only [Function.update_of_ne hi]

@[simp] theorem release_size {e : ℕ} : (d.release e).size = d.size := rfl

@[simp] theorem release_htTable {e : ℕ} : (d.release e).htTable = d.htTable := rfl

@[simp] theorem release_firstAv {e : ℕ} : (d.release e).firstAv = e := rfl

@[simp] theorem release_n {e : ℕ} : (d.release e).n = d.n - 1 := rfl

theorem release_next {e : ℕ} : (d.release e).next = Function.update d.next e d.firstAv :=
  setNext_next

@[simp] theorem release_key {e i : ℕ} : ((d.release e).eltList i).key = (d.eltList i).key :=
  setNext_key

@[simp] theorem release_value {e i : ℕ} :
    ((d.release e).eltList i).value = (d.eltList i).value :=
  setNext_value

/-- In bucket `b` the element `e` between `pre` and `post` is taken out and put at the
beginning of the free space; nothing else changes. -/
structure Removed (d d' : Dict) (b e : ℕ) (pre post : List ℕ) : Prop where
  size_eq : d'.size = d.size
  n_eq : d'.n = d.n - 1
  firstAv_eq : d'.firstAv = e
  next_self : d'.next e = d.firstAv
  linked : Linked d'.next (d'.htTable b) (pre ++ post)
  htTable_of_ne : ∀ b' ≠ b, d'.htTable b' = d.htTable b'
  next_of_notMem : ∀ i ∉ pre ++ e :: post, d'.next i = d.next i
  key_eq : ∀ i, (d'.eltList i).key = (d.eltList i).key
  value_eq : ∀ i, (d'.eltList i).value = (d.eltList i).value

/-- The first element of a chain is removed. -/
theorem removed_head {b e : ℕ} {post : List ℕ} (hl : Linked d.next (d.htTable b) (e :: post))
    (hnodup : (e :: post).Nodup) :
    Removed d ({ d with htTable := Function.update d.htTable b (d.next e) }.release e)
      b e [] post where
  size_eq := rfl
  n_eq := rfl
  firstAv_eq := rfl
  next_self := by rw [release_next, Function.update_self]
  linked := by
    have hhead : ({ d with htTable := Function.update d.htTable b (d.next e) }.release
        e).htTable b = d.next e := Function.update_self ..
    rw [release_next, hhead]
    exact hl.of_cons.2.update (List.nodup_cons.mp hnodup).1 _
  htTable_of_ne := fun b' hb' => Function.update_of_ne hb' ..
  next_of_notMem := fun i hi => by
    have hie : i ≠ e := fun h => hi (h ▸ List.mem_cons_self ..)
    rw [release_next, Function.update_of_ne hie]
    rfl
  key_eq := fun i => release_key
  value_eq := fun i => release_value

/-- An element behind another one is removed. -/
theorem removed_interior {b i e : ℕ} {pre post : List ℕ}
    (hl : Linked d.next (d.htTable b) (pre ++ i :: e :: post))
    (hnodup : (pre ++ i :: e :: post).Nodup) :
    Removed d ((d.setNext i (d.next e)).release e) b e (pre ++ [i]) post := by
  have hout : e ∉ pre ++ i :: post := by
    have hperm : (pre ++ i :: e :: post).Perm (e :: (pre ++ i :: post)) :=
      ((List.Perm.swap e i post).append_left pre).trans List.perm_middle
    exact (List.nodup_cons.mp (hperm.nodup_iff.mp hnodup)).1
  refine ⟨rfl, rfl, rfl, ?_, ?_, fun _ _ => rfl, fun j hj => ?_, fun j => ?_, fun j => ?_⟩
  · rw [release_next, Function.update_self, setNext_firstAv]
  · rw [release_next, release_htTable, setNext_next, List.append_assoc]
    exact (hl.unlink hnodup).update hout _
  · rw [List.append_assoc, List.mem_append, not_or] at hj
    have hje : j ≠ e := fun h => hj.2 (h ▸ by simp)
    have hji : j ≠ i := fun h => hj.2 (h ▸ by simp)
    rw [release_next, Function.update_of_ne hje, setNext_next, Function.update_of_ne hji]
  · rw [release_key, setNext_key]
  · rw [release_value, setNext_value]

namespace Chained

/-- There is at least one bucket. -/
theorem size_pos (hd : Chained hash d chain free) : 0 < d.size := by
  have hroom := hd.room
  have hcount := hd.count
  omega

/-- A key has a bucket. -/
theorem bucket_lt (hd : Chained hash d chain free) (key : CStr) : hash key % d.size < d.size :=
  Nat.mod_lt _ hd.size_pos

theorem mem_used {b e : ℕ} (hb : b < d.size) (he : e ∈ chain b) : e ∈ d.used chain :=
  List.mem_flatMap.mpr ⟨b, List.mem_range.mpr hb, he⟩

/-- Every slot of a chain or of the free list is one of the array's. -/
theorem lt_size (hd : Chained hash d chain free) {e : ℕ} (he : e ∈ d.used chain ++ free) :
    e < d.size :=
  List.mem_range.mp (hd.parts.mem_iff.mp he)

/-- No element is in two places. -/
theorem nodup (hd : Chained hash d chain free) : (d.used chain ++ free).Nodup :=
  hd.parts.nodup_iff.mpr List.nodup_range

/-- The elements in use and the free ones are all there are. -/
theorem length_add (hd : Chained hash d chain free) :
    (d.used chain).length + free.length = d.size := by
  rw [← List.length_append, hd.parts.length_eq, List.length_range]

/-- A chain is no longer than the table. -/
theorem length_chain_le (hd : Chained hash d chain free) {b : ℕ} (hb : b < d.size) :
    (chain b).length ≤ d.size := by
  have hsub : (chain b).Sublist (d.used chain) :=
    List.sublist_flatten_of_mem (List.mem_map_of_mem (List.mem_range.mpr hb))
  have hle := hsub.length_le
  have hadd := hd.length_add
  omega

/-- The load test leaves a free element. -/
theorem exists_free (hd : Chained hash d chain free) :
    ∃ e free', free = e :: free' ∧ d.firstAv = (e : ℤ) ∧ Linked d.next (d.next e) free' := by
  refine hd.free_linked.exists_cons fun hend => ?_
  have hnil : free = [] := by
    have hlinked := hd.free_linked
    rw [hend] at hlinked
    exact hlinked.eq_nil
  have hadd := hd.length_add
  have hcount := hd.count
  have hroom := hd.room
  rw [hnil, List.length_nil] at hadd
  omega

/-- A record at the head of its chain keeps the shape. -/
theorem link {e : ℕ} (hd : Chained hash d chain (e :: free))
    (hroom : 5 * (d.n + 1) < 4 * d.size) :
    Chained hash (d.link e (hash key % d.size) key value)
      (Function.update chain (hash key % d.size) (e :: chain (hash key % d.size))) free := by
  set h := hash key % d.size with hh
  have hlt : h < d.size := hd.bucket_lt key
  obtain ⟨-, hdisj, hfree⟩ : _ ∧ e ∉ d.used chain ∧ (e ∉ free) := by
    have hnodup := hd.nodup
    rw [List.perm_middle.nodup_iff, List.nodup_cons, List.mem_append, not_or] at hnodup
    exact ⟨hnodup.2, hnodup.1⟩
  have hout : ∀ b < d.size, e ∉ chain b := fun b hb he => hdisj (mem_used hb he)
  have hused : ((List.range d.size).flatMap (Function.update chain h (e :: chain h))).Perm
      (e :: d.used chain) :=
    flatMap_update_cons_perm List.nodup_range (List.mem_range.mpr hlt) chain e
  constructor
  case chain_linked =>
    intro b hb
    rw [link_next]
    by_cases hbh : b = h
    · subst hbh
      rw [Function.update_self, link_htTable, Function.update_self]
      exact (hd.chain_linked h hlt).push (hout h hlt)
    · rw [Function.update_of_ne hbh, link_htTable, Function.update_of_ne hbh]
      exact (hd.chain_linked b hb).update (hout b hb) _
  case free_linked =>
    rw [link_next]
    exact hd.free_linked.of_cons.2.update hfree _
  case parts =>
    refine (hused.append_right free).trans ?_
    exact List.perm_middle.symm.trans hd.parts
  case home =>
    intro b hb i hi
    by_cases hie : i = e
    · subst hie
      rw [link_eltList_self, link_size]
      by_cases hbh : b = h
      · exact hbh ▸ hh.symm
      · rw [Function.update_of_ne hbh] at hi
        exact absurd hi (hout b hb)
    · rw [link_eltList_of_ne hie, link_size]
      refine hd.home b hb i ?_
      by_cases hbh : b = h
      · subst hbh
        rw [Function.update_self] at hi
        exact (List.mem_cons.mp hi).resolve_left hie
      · rwa [Function.update_of_ne hbh] at hi
  case count =>
    have hlen := hused.length_eq
    have hcount := hd.count
    rw [List.length_cons] at hlen
    rw [link_n, used, link_size, hlen]
    omega
  case room =>
    rwa [link_n, link_size]

/-- The new record is on top of the stack of its key, and no other stack changes. -/
theorem stack_link {e : ℕ} (hd : Chained hash d chain (e :: free)) (key' : CStr) :
    (d.link e (hash key % d.size) key value).stack hash
        (Function.update chain (hash key % d.size) (e :: chain (hash key % d.size))) key' =
      if key' = key then value :: d.stack hash chain key' else d.stack hash chain key' := by
  set h := hash key % d.size
  have hdisj : e ∉ d.used chain := by
    have hnodup := hd.nodup
    rw [List.perm_middle.nodup_iff, List.nodup_cons, List.mem_append, not_or] at hnodup
    exact hnodup.1.1
  have hsame : ∀ b < d.size, ∀ i ∈ chain b,
      (d.link e h key value).eltList i = d.eltList i := fun b hb i hi =>
    link_eltList_of_ne fun hie : i = e => hdisj (hie ▸ mem_used hb hi)
  have hold : ∀ b < d.size,
      ((chain b).filter fun i => ((d.link e h key value).eltList i).key = key').map
        (fun i => ((d.link e h key value).eltList i).value) =
      ((chain b).filter fun i => (d.eltList i).key = key').map
        fun i => (d.eltList i).value := by
    intro b hb
    rw [List.filter_congr fun i hi => by rw [hsame b hb i hi]]
    exact List.map_congr_left fun i hi => by rw [hsame b hb i (List.mem_of_mem_filter hi)]
  have hb' := hd.bucket_lt key'
  rw [stack, link_size, stack]
  by_cases hbh : hash key' % d.size = h
  · rw [hbh, Function.update_self, List.filter_cons, link_eltList_self]
    by_cases hkey : key' = key
    · rw [if_pos (by simpa using hkey.symm), if_pos hkey, List.map_cons, link_eltList_self,
        hold h (hbh ▸ hb')]
    · rw [if_neg (by simpa using fun e : key = key' => hkey e.symm), if_neg hkey,
        hold h (hbh ▸ hb')]
  · have hkey : key' ≠ key := fun hk => hbh (by rw [hk])
    rw [Function.update_of_ne hbh, if_neg hkey, hold _ hb']

/-- A chain has no element twice. -/
theorem nodup_chain (hd : Chained hash d chain free) {b : ℕ} (hb : b < d.size) :
    (chain b).Nodup :=
  ((List.sublist_flatten_of_mem (List.mem_map_of_mem (List.mem_range.mpr hb))).trans
    (List.sublist_append_left _ free)).nodup hd.nodup

/-- Two chains share no element. -/
theorem eq_of_mem (hd : Chained hash d chain free) {b b' e : ℕ} (hb : b < d.size)
    (hb' : b' < d.size) (he : e ∈ chain b) (he' : e ∈ chain b') : b = b' :=
  (hd.home b hb e he).symm.trans (hd.home b' hb' e he')

variable {d' : Dict} {b e : ℕ} {pre post : List ℕ}

/-- Taking an element out of its chain keeps the shape. -/
theorem removed (hd : Chained hash d chain free) (hb : b < d.size)
    (hchain : chain b = pre ++ e :: post) (hr : Removed d d' b e pre post) :
    Chained hash d' (Function.update chain b (pre ++ post)) (e :: free) := by
  have hused : (d.used chain).Perm
      (e :: (List.range d.size).flatMap (Function.update chain b (pre ++ post))) :=
    flatMap_perm_cons_update List.nodup_range (List.mem_range.mpr hb)
      (hchain ▸ List.perm_middle)
  have hnodup := hd.nodup
  have hdisj : ∀ i ∈ free, i ∉ chain b := fun i hi hi' =>
    (List.nodup_append.mp hnodup).2.2 i (mem_used hb hi') i hi rfl
  have hsub : ∀ b', ∀ i ∈ Function.update chain b (pre ++ post) b', i ∈ chain b' := by
    intro b' i hi
    by_cases hbb : b' = b
    · subst hbb
      rw [Function.update_self] at hi
      rw [hchain]
      exact (List.sublist_cons_self e post).append_left pre |>.subset hi
    · rwa [Function.update_of_ne hbb] at hi
  constructor
  case chain_linked =>
    intro b' hb'
    rw [hr.size_eq] at hb'
    by_cases hbb : b' = b
    · subst hbb
      rw [Function.update_self]
      exact hr.linked
    · rw [Function.update_of_ne hbb, hr.htTable_of_ne b' hbb]
      refine (hd.chain_linked b' hb').congr fun i hi => hr.next_of_notMem i fun hi' => hbb ?_
      exact hd.eq_of_mem hb' hb hi (hchain ▸ hi')
  case free_linked =>
    rw [hr.firstAv_eq]
    refine .cons ?_
    rw [hr.next_self]
    exact hd.free_linked.congr fun i hi =>
      hr.next_of_notMem i fun hi' => hdisj i hi (hchain ▸ hi')
  case parts =>
    rw [used, hr.size_eq]
    exact List.perm_middle.trans ((hused.symm.append_right free).trans hd.parts)
  case home =>
    intro b' hb' i hi
    rw [hr.size_eq] at hb' ⊢
    rw [hr.key_eq]
    exact hd.home b' hb' i (hsub b' i hi)
  case count =>
    have hlen := hused.length_eq
    have hcount := hd.count
    rw [List.length_cons] at hlen
    rw [hr.n_eq, used, hr.size_eq]
    omega
  case room =>
    have hroom := hd.room
    rw [hr.n_eq, hr.size_eq]
    omega

/-- Where the first record of a key is taken out, the stack of the key loses its top, and
no other stack changes. -/
theorem stack_removed (hchain : chain (hash key % d.size) = pre ++ e :: post)
    (hpre : ∀ i ∈ pre, (d.eltList i).key ≠ key) (he : (d.eltList e).key = key)
    (hr : Removed d d' (hash key % d.size) e pre post) (key' : CStr) :
    d'.stack hash (Function.update chain (hash key % d.size) (pre ++ post)) key' =
      if key' = key then (d.stack hash chain key').tail else d.stack hash chain key' := by
  rw [stack, stack, hr.size_eq]
  simp only [hr.key_eq, hr.value_eq]
  by_cases hbb : hash key' % d.size = hash key % d.size
  · rw [hbb, Function.update_self, hchain, List.filter_append, List.filter_append,
      List.filter_cons]
    by_cases hkey : key' = key
    · subst hkey
      have hnone : pre.filter (fun i => (d.eltList i).key = key') = [] :=
        List.filter_eq_nil_iff.mpr fun i hi => by simpa using hpre i hi
      rw [if_pos rfl, if_pos (by simpa using he), hnone, List.nil_append, List.nil_append,
        List.map_cons, List.tail_cons]
    · rw [if_neg hkey, if_neg (by simpa using fun h => hkey (h.symm.trans he))]
  · rw [Function.update_of_ne hbb, if_neg fun hkey => hbb (by rw [hkey])]

end Chained

/-- The loop of a deletion goes to the first record of the key behind `idx`, if there is
one. -/
theorem deleteFrom_cases {fuel idx : ℕ} {l : List ℕ} (hl : Linked d.next (d.next idx) l)
    (hlt : ∀ e ∈ l, e < d.size) (hfuel : l.length < fuel)
    (hidx : (d.eltList idx).key ≠ key) :
    (∃ pre i e post, idx :: l = pre ++ i :: e :: post ∧
        (∀ j ∈ pre ++ [i], (d.eltList j).key ≠ key) ∧ (d.eltList e).key = key ∧
        d.deleteFrom key fuel idx = .ok ((d.setNext i (d.next e)).release e)) ∨
      (∀ e ∈ l, (d.eltList e).key ≠ key) ∧ d.deleteFrom key fuel idx = .ok d := by
  induction fuel generalizing idx l with
  | zero => omega
  | succ fuel ih =>
      rw [deleteFrom]
      by_cases hend : d.next idx = -1
      · rw [hend] at hl
        obtain rfl := hl.eq_nil
        exact .inr ⟨fun e he => absurd he List.not_mem_nil, if_pos hend⟩
      · obtain ⟨e, l, rfl, hnext, hrest⟩ := hl.exists_cons hend
        obtain ⟨he, hlt⟩ := List.forall_mem_cons.mp hlt
        rw [if_neg hend, hnext, slot_eq he]
        by_cases hkey : (d.eltList e).key = key
        · refine .inl ⟨[], idx, e, l, rfl, ?_, hkey, ?_⟩
          · simpa using hidx
          · simp [hkey, bind, Except.bind, pure, Except.pure]
        · simp only [bind, Except.bind, hkey, if_false]
          obtain ⟨pre, i, e', post, hsplit, hpre, he', hdel⟩ | ⟨hnone, hdel⟩ :=
            ih hrest hlt (by simpa using hfuel) hkey
          · refine .inl ⟨idx :: pre, i, e', post, by rw [hsplit]; rfl, ?_, he', hdel⟩
            rw [List.cons_append]
            exact List.forall_mem_cons.mpr ⟨hidx, hpre⟩
          · exact .inr ⟨List.forall_mem_cons.mpr ⟨hkey, hnone⟩, hdel⟩

/-- The loop walks the chain until it finds the key. -/
theorem searchFrom_eq {fuel : ℕ} {idx : ℤ} {l : List ℕ} (hl : Linked d.next idx l)
    (hne : l ≠ []) (hlt : ∀ e ∈ l, e < d.size) (hfuel : l.length ≤ fuel) :
    d.searchFrom key fuel idx =
      .ok (((l.filter fun e => (d.eltList e).key = key).map fun e =>
        (d.eltList e).value).head?.getD (-1)) := by
  induction fuel generalizing idx l with
  | zero => exact absurd (List.length_eq_zero_iff.mp (by omega)) hne
  | succ fuel ih =>
      cases hl with
      | nil => exact absurd rfl hne
      | @cons e l rest =>
          have he : e < d.size := hlt e (List.mem_cons_self ..)
          rw [searchFrom, slot_eq he, List.filter_cons]
          by_cases hkey : (d.eltList e).key = key
          · simp [hkey, bind, Except.bind, pure, Except.pure]
          · by_cases hend : d.next e = -1
            · rw [hend] at rest
              obtain rfl := rest.eq_nil
              simp [hkey, hend, bind, Except.bind, pure, Except.pure]
            · obtain ⟨i, l', rfl, -⟩ := rest.exists_cons hend
              have hrest := ih rest (by simp) (fun j hj => hlt j (List.mem_cons_of_mem e hj))
                (by simpa using hfuel)
              simp [hkey, hend, bind, Except.bind, hrest]

end Dict

/-! ## The operations on the stacks -/

section Operations

variable {hash : CStr → ℕ} {d : Dict} {σ : CStr → List ℤ}

/-- The free list of a new table. -/
theorem linked_range' {next : ℕ → ℤ} {m k nSize : ℕ} (hm : k + (m + 1) = nSize)
    (hnext : ∀ i < nSize, next i = if i + 1 = nSize then -1 else (i : ℤ) + 1) :
    Linked next k (List.range' k (m + 1)) := by
  induction m generalizing k with
  | zero =>
      refine .cons ?_
      rw [hnext k (by omega), if_pos (by omega)]
      exact .nil
  | succ m ih =>
      rw [List.range'_succ]
      refine .cons ?_
      rw [hnext k (by omega), if_neg (by omega)]
      exact ih (k := k + 1) (by omega)

/-- A new table holds nothing. -/
theorem represents_dictCreate (d : Dict) {nSize : ℕ} (hpos : 0 < nSize) :
    (dictCreate d nSize).Represents hash fun _ => [] := by
  obtain ⟨m, rfl⟩ : ∃ m, nSize = m + 1 := ⟨nSize - 1, by omega⟩
  refine ⟨fun _ => [], List.range (m + 1), ?_, fun _ => rfl⟩
  rw [dictCreate, if_neg (by omega)]
  have hused (l : List ℕ) : l.flatMap (fun _ => ([] : List ℕ)) = [] :=
    List.flatMap_eq_nil_iff.mpr fun _ _ => rfl
  constructor
  case chain_linked => exact fun _ _ => .nil
  case free_linked =>
    rw [List.range_eq_range']
    exact linked_range' (k := 0) (Nat.zero_add (m + 1)) fun _ _ => rfl
  case parts => rw [Dict.used, hused, List.nil_append]
  case home => exact fun _ _ _ he => absurd he List.not_mem_nil
  case count =>
    rw [Dict.used, hused]
    rfl
  case room =>
    show (5 * 0 : ℤ) < 4 * ((m + 1 : ℕ) : ℤ)
    omega

/-- What `DictInsert` does where the table has a free element. -/
theorem dictInsert_eq {e : ℕ} (hfirst : d.firstAv = (e : ℤ)) (he : e < d.size) (key : CStr)
    (value : ℤ) :
    dictInsert hash d key value =
      if maxNameLen ≤ key.length then .error .keyOverflow
      else if 4 * (d.size : ℤ) ≤ 5 * (d.n + 1) then .error .full
      else .ok (d.link e (hash key % d.size) key value, d.firstAv) := by
  rw [dictInsert, hfirst, Dict.slot_eq he]
  by_cases hlong : maxNameLen ≤ key.length
  · simp [bind, Except.bind, throw, throwThe, MonadExceptOf.throw, hlong]
  · by_cases hfull : 4 * (d.size : ℤ) ≤ 5 * (d.n + 1)
    · simp [bind, Except.bind, throw, throwThe, MonadExceptOf.throw, hlong, hfull]
    · simp [bind, Except.bind, pure, Except.pure, hlong, hfull]

/-- `DictInsert` of a key that fits pushes the value, unless the table is then too full. -/
theorem represents_dictInsert (hd : d.Represents hash σ) {key : CStr}
    (hkey : key.length < maxNameLen) (value : ℤ) (hroom : 5 * (d.n + 1) < 4 * d.size) :
    ∃ d', dictInsert hash d key value = .ok (d', d.firstAv) ∧ d'.size = d.size ∧
      d'.n = d.n + 1 ∧ d'.Represents hash (Function.update σ key (value :: σ key)) := by
  obtain ⟨chain, free, hchained, hσ⟩ := hd
  obtain ⟨e, free, rfl, hfirst, -⟩ := hchained.exists_free
  have he : e < d.size := hchained.lt_size (List.mem_append_right _ (List.mem_cons_self ..))
  refine ⟨d.link e (hash key % d.size) key value, ?_, rfl, rfl, _, free,
    hchained.link hroom, fun key' => ?_⟩
  · rw [dictInsert_eq hfirst he, if_neg (Nat.not_le.mpr hkey), if_neg (Int.not_le.mpr hroom)]
  · rw [hchained.stack_link key', hσ key']
    by_cases hk : key' = key
    · subst hk
      rw [if_pos rfl, Function.update_self]
    · rw [if_neg hk, Function.update_of_ne hk]

/-- `DictSearch` answers with the top of the stack, and with `-1` for an empty one. -/
theorem dictSearch_eq (hd : d.Represents hash σ) (key : CStr) :
    dictSearch hash d key = .ok ((σ key).head?.getD (-1)) := by
  obtain ⟨chain, free, hchained, hσ⟩ := hd
  have hb := hchained.bucket_lt key
  have hlinked := hchained.chain_linked _ hb
  rw [← hσ key, Dict.stack, dictSearch]
  by_cases hnil : chain (hash key % d.size) = []
  · rw [hnil] at hlinked ⊢
    have hend : d.htTable (hash key % d.size) = -1 := hlinked.eq_neg_one
    simp [hend, pure, Except.pure]
  · have hn : d.n ≠ 0 := by
      intro hn
      have hcount := hchained.count
      rw [hn, eq_comm, Int.natCast_eq_zero, List.length_eq_zero_iff] at hcount
      obtain ⟨e, he⟩ := List.exists_mem_of_ne_nil _ hnil
      exact List.not_mem_nil (hcount ▸ Dict.Chained.mem_used hb he)
    have hidx : d.htTable (hash key % d.size) ≠ -1 := by
      intro hidx
      rw [hidx] at hlinked
      exact hnil hlinked.eq_nil
    simp only [if_neg hn, if_neg hidx]
    exact Dict.searchFrom_eq hlinked hnil
      (fun e he => hchained.lt_size (List.mem_append_left _ (Dict.Chained.mem_used hb he)))
      (hchained.length_chain_le hb)

/-- `DictDelete` of a key whose bucket is not empty takes the first record of the key out of
its chain, or changes nothing where there is none. -/
theorem dictDelete_cases {chain : ℕ → List ℕ} {free : List ℕ}
    (hd : Dict.Chained hash d chain free) {key : CStr}
    (hne : chain (hash key % d.size) ≠ []) :
    (∃ d' e pre post, chain (hash key % d.size) = pre ++ e :: post ∧
        (∀ i ∈ pre, (d.eltList i).key ≠ key) ∧ (d.eltList e).key = key ∧
        Dict.Removed d d' (hash key % d.size) e pre post ∧ dictDelete hash d key = .ok d') ∨
      (∀ e ∈ chain (hash key % d.size), (d.eltList e).key ≠ key) ∧
        dictDelete hash d key = .ok d := by
  set h := hash key % d.size with hh
  have hb : h < d.size := hd.bucket_lt key
  have hlinked := hd.chain_linked h hb
  have hnodup := hd.nodup_chain hb
  have hlen := hd.length_chain_le hb
  have hlt : ∀ e ∈ chain h, e < d.size := fun e he =>
    hd.lt_size (List.mem_append_left _ (Dict.Chained.mem_used hb he))
  obtain ⟨idx, l, hl⟩ := List.exists_cons_of_ne_nil hne
  rw [hl] at hlinked hnodup hlen hlt
  obtain ⟨hhead, hrest⟩ := hlinked.of_cons
  obtain ⟨hidx, hlt⟩ := List.forall_mem_cons.mp hlt
  rw [dictDelete, ← hh, hhead, Dict.slot_eq hidx]
  by_cases hkey : (d.eltList idx).key = key
  · refine .inl ⟨_, idx, [], l, hl, fun i hi => absurd hi List.not_mem_nil, hkey,
      Dict.removed_head hlinked hnodup, ?_⟩
    simp [hkey, bind, Except.bind, pure, Except.pure]
  · simp only [bind, Except.bind, hkey, if_false]
    obtain ⟨pre, i, e, post, hsplit, hpre, he, hdel⟩ | ⟨hnone, hdel⟩ :=
      Dict.deleteFrom_cases hrest hlt hlen hkey
    · rw [hsplit] at hlinked hnodup
      refine .inl ⟨_, e, pre ++ [i], post, ?_, hpre, he,
        Dict.removed_interior hlinked hnodup, hdel⟩
      rw [hl, hsplit, List.append_assoc]
      rfl
    · rw [hl]
      exact .inr ⟨List.forall_mem_cons.mpr ⟨hkey, hnone⟩, hdel⟩

/-- `DictDelete` of a key that is present pops its stack. -/
theorem represents_dictDelete (hd : d.Represents hash σ) {key : CStr} (hkey : σ key ≠ []) :
    ∃ d', dictDelete hash d key = .ok d' ∧ d'.size = d.size ∧ d'.n = d.n - 1 ∧
      d'.Represents hash (Function.update σ key (σ key).tail) := by
  obtain ⟨chain, free, hchained, hσ⟩ := hd
  have hpresent : ∃ e ∈ chain (hash key % d.size), (d.eltList e).key = key := by
    by_contra hall
    have hnone : (chain (hash key % d.size)).filter (fun e => (d.eltList e).key = key) = [] :=
      List.filter_eq_nil_iff.mpr fun e he => by simpa using fun h => hall ⟨e, he, h⟩
    rw [← hσ key, Dict.stack, hnone] at hkey
    exact hkey rfl
  obtain ⟨e, he, hekey⟩ := hpresent
  obtain ⟨d', e', pre, post, hchain, hpre, he', hr, hdel⟩ | ⟨hnone, -⟩ :=
    dictDelete_cases hchained (List.ne_nil_of_mem he)
  · refine ⟨d', hdel, hr.size_eq, hr.n_eq, _, _,
      hchained.removed (hchained.bucket_lt key) hchain hr, fun key' => ?_⟩
    rw [Dict.Chained.stack_removed hchain hpre he' hr key', hσ key']
    by_cases hk : key' = key
    · subst hk
      rw [if_pos rfl, Function.update_self]
    · rw [if_neg hk, Function.update_of_ne hk]
  · exact absurd hekey (hnone e he)

end Operations

end Ooops
