import Ooops.Basis.Fallible
import Ooops.Dict

/-!
# Runs of the Hash Table

Sequences of calls on a table that `DictCreate` has made.

* `StackRun` is what the calls mean: the table is a stack of values for every key. An
  insertion pushes, a deletion pops, a search answers with the top.
* `Callable` says that all keys fit an element and that only keys are deleted that are
  there.
* `dictRun_cases`: such a sequence ends in the exit for a full table, or the table has done
  what the stacks do.
* `dictRun_refines` and `dictRun_partition`: the answers of the calls, and the shape of the
  table behind them.
* `dictDelete_absent_iff`: when `DictDelete` passes over a key that is not there.
-/

open Basis

namespace Ooops

/-- A call on a table. -/
inductive DictOp
  | insert (key : CStr) (value : ℤ)
  | insertAuto (key : CStr)
  | delete (key : CStr)
  | search (key : CStr)

/-- A call, with what it returns. -/
def dictCall (hash : CStr → ℕ) (d : Dict) : DictOp → Except DictError (Dict × Option ℤ)
  | .insert key value => (dictInsert hash d key value).map fun r => (r.1, some r.2)
  | .insertAuto key => (dictInsertAuto hash d key).map fun r => (r.1, some r.2)
  | .delete key => (dictDelete hash d key).map fun d' => (d', none)
  | .search key => (dictSearch hash d key).map fun value => (d, some value)

/-- The calls one after the other, with what they return. -/
def dictRun (hash : CStr → ℕ) : Dict → List DictOp → Except DictError (Dict × List (Option ℤ))
  | d, [] => .ok (d, [])
  | d, op :: ops => do
      let (d', r) ← dictCall hash d op
      let (d'', rs) ← dictRun hash d' ops
      return (d'', r :: rs)

/-- What a call does to the stacks and what it returns. The element that an insertion
returns is any. -/
inductive StackStep (σ : CStr → List ℤ) : DictOp → Option ℤ → (CStr → List ℤ) → Prop
  | insert (key : CStr) (value e : ℤ) :
      StackStep σ (.insert key value) (some e) (Function.update σ key (value :: σ key))
  | insertAuto (key : CStr) (e : ℤ) :
      StackStep σ (.insertAuto key) (some e) (Function.update σ key (e :: σ key))
  | delete (key : CStr) (value : ℤ) (values : List ℤ) (h : σ key = value :: values) :
      StackStep σ (.delete key) none (Function.update σ key values)
  | search (key : CStr) : StackStep σ (.search key) (some ((σ key).head?.getD (-1))) σ

/-- What the calls do to the stacks, one after the other. -/
inductive StackRun : (CStr → List ℤ) → List DictOp → List (Option ℤ) → (CStr → List ℤ) → Prop
  | nil (σ : CStr → List ℤ) : StackRun σ [] [] σ
  | cons {σ σ' σ'' : CStr → List ℤ} {op : DictOp} {ops : List DictOp} {r : Option ℤ}
      {rs : List (Option ℤ)} (step : StackStep σ op r σ') (rest : StackRun σ' ops rs σ'') :
      StackRun σ (op :: ops) (r :: rs) σ''

/-- The calls keep to the keys that fit, and delete only what is there, when there are
`depth key` records of each key. -/
def Callable : (CStr → ℕ) → List DictOp → Prop
  | _, [] => True
  | depth, .insert key _ :: ops =>
      key.length < maxNameLen ∧ Callable (Function.update depth key (depth key + 1)) ops
  | depth, .insertAuto key :: ops =>
      key.length < maxNameLen ∧ Callable (Function.update depth key (depth key + 1)) ops
  | depth, .delete key :: ops =>
      0 < depth key ∧ Callable (Function.update depth key (depth key - 1)) ops
  | depth, .search _ :: ops => Callable depth ops

section Runs

variable {hash : CStr → ℕ} {d : Dict} {σ : CStr → List ℤ}

/-- The numbers of records after a stack has changed. -/
theorem length_update (σ : CStr → List ℤ) (key : CStr) (values : List ℤ) :
    (fun k => (Function.update σ key values k).length) =
      Function.update (fun k => (σ k).length) key values.length := by
  funext k
  by_cases hk : k = key
  · subst hk
    simp only [Function.update_self]
  · simp only [Function.update_of_ne hk]

/-- A table that can take no more records exits when it gets one. -/
theorem dictInsert_of_full (hd : d.Represents hash σ) {key : CStr}
    (hkey : key.length < maxNameLen) (value : ℤ) (hroom : ¬5 * (d.n + 1) < 4 * d.size) :
    dictInsert hash d key value = .error .full := by
  obtain ⟨chain, free, hchained, -⟩ := hd
  obtain ⟨e, free, rfl, hfirst, -⟩ := hchained.exists_free
  have he : e < d.size := hchained.lt_size (List.mem_append_right _ (List.mem_cons_self ..))
  rw [dictInsert_eq hfirst he, if_neg (Nat.not_le.mpr hkey), if_pos (Int.not_lt.mp hroom)]

/-- An insertion pushes its value, or finds the table full. -/
theorem dictInsert_cases (hd : d.Represents hash σ) {key : CStr}
    (hkey : key.length < maxNameLen) (value : ℤ) :
    dictInsert hash d key value = .error .full ∨
      ∃ d', dictInsert hash d key value = .ok (d', d.firstAv) ∧ d'.size = d.size ∧
        d'.Represents hash (Function.update σ key (value :: σ key)) := by
  by_cases hroom : 5 * (d.n + 1) < 4 * d.size
  · obtain ⟨d', hins, hsize, -, hd'⟩ := represents_dictInsert hd hkey value hroom
    exact .inr ⟨d', hins, hsize, hd'⟩
  · exact .inl (dictInsert_of_full hd hkey value hroom)

/-- **One call.** It finds the table full, or does to the table what it does to the
stacks. -/
theorem dictCall_cases (hd : d.Represents hash σ) {op : DictOp} {ops : List DictOp}
    (hop : Callable (fun key => (σ key).length) (op :: ops)) :
    dictCall hash d op = .error .full ∨
      ∃ d' r σ', dictCall hash d op = .ok (d', r) ∧ StackStep σ op r σ' ∧
        d'.size = d.size ∧ d'.Represents hash σ' ∧ Callable (fun key => (σ' key).length) ops := by
  cases op with
  | insert key value =>
      obtain hfull | ⟨d', hins, hsize, hd'⟩ := dictInsert_cases hd hop.1 value
      · exact .inl (by rw [dictCall, hfull]; rfl)
      · refine .inr ⟨d', _, _, by rw [dictCall, hins]; rfl, .insert key value _, hsize,
          hd', ?_⟩
        rw [length_update]
        exact hop.2
  | insertAuto key =>
      obtain hfull | ⟨d', hins, hsize, hd'⟩ := dictInsert_cases hd hop.1 d.firstAv
      · exact .inl (by rw [dictCall, dictInsertAuto, hfull]; rfl)
      · refine .inr ⟨d', _, _, by rw [dictCall, dictInsertAuto, hins]; rfl,
          .insertAuto key _, hsize, hd', ?_⟩
        rw [length_update]
        exact hop.2
  | delete key =>
      obtain ⟨value, values, hσ⟩ := List.exists_cons_of_length_pos hop.1
      have hpresent : σ key ≠ [] := by simp [hσ]
      obtain ⟨d', hdel, hsize, -, hd'⟩ := represents_dictDelete hd hpresent
      rw [hσ, List.tail_cons] at hd'
      refine .inr ⟨d', _, _, by rw [dictCall, hdel]; rfl, .delete key value values hσ, hsize,
        hd', ?_⟩
      have hrest := hop.2
      simp only [hσ, List.length_cons, Nat.add_sub_cancel] at hrest
      rwa [length_update]
  | search key =>
      exact .inr ⟨d, _, σ, by rw [dictCall, dictSearch_eq hd key]; rfl, .search key, rfl, hd,
        hop⟩

/-- **A sequence of calls.** One of them finds the table full, or they do to the table what
they do to the stacks. -/
theorem dictRun_cases (hd : d.Represents hash σ) {ops : List DictOp}
    (hops : Callable (fun key => (σ key).length) ops) :
    dictRun hash d ops = .error .full ∨
      ∃ d' rs σ', dictRun hash d ops = .ok (d', rs) ∧ StackRun σ ops rs σ' ∧
        d'.size = d.size ∧ d'.Represents hash σ' := by
  induction ops generalizing d σ with
  | nil => exact .inr ⟨d, [], σ, rfl, .nil σ, rfl, hd⟩
  | cons op ops ih =>
      rw [dictRun]
      obtain hfull | ⟨d', r, σ', hcall, hstep, hsize, hd', hops'⟩ := dictCall_cases hd hops
      · exact .inl (by rw [hfull]; rfl)
      · rw [hcall]
        obtain hfull | ⟨d'', rs, σ'', hrun, hrest, hsize', hd''⟩ := ih hd' hops'
        · exact .inl (by simp [bind, Except.bind, hfull])
        · exact .inr ⟨d'', r :: rs, σ'', by simp [bind, Except.bind, pure, Except.pure, hrun],
            .cons hstep hrest, hsize'.trans hsize, hd''⟩

/-- The loop of `DictDelete` ends, as it walks a chain. -/
theorem dictDelete_ne_endless {chain : ℕ → List ℕ} {free : List ℕ}
    (hd : d.Chained hash chain free) (key : CStr) :
    dictDelete hash d key ≠ .error .endless := by
  by_cases hnil : chain (hash key % d.size) = []
  · have hlinked := hd.chain_linked _ (hd.bucket_lt key)
    rw [hnil] at hlinked
    have hend : d.htTable (hash key % d.size) = -1 := hlinked.eq_neg_one
    simp [dictDelete, hend, Dict.slot, bind, Except.bind]
  · obtain ⟨d', e, pre, post, -, -, -, -, hdel⟩ | ⟨-, hdel⟩ := dictDelete_cases hd hnil
    · simp [hdel]
    · simp [hdel]

/-- **Refinement.** As long as the table does not get full, any sequence of calls on a new
table answers like the stacks, and leaves a table of which this is true again. -/
theorem dictRun_refines (hash : CStr → ℕ) (d : Dict) {nSize : ℕ} (hpos : 0 < nSize)
    {ops : List DictOp} (hops : Callable (fun _ => 0) ops)
    (hfull : dictRun hash (dictCreate d nSize) ops ≠ .error .full) :
    ∃ d' rs σ, dictRun hash (dictCreate d nSize) ops = .ok (d', rs) ∧
      StackRun (fun _ => []) ops rs σ ∧
      ∀ key, dictSearch hash d' key = .ok ((σ key).head?.getD (-1)) := by
  obtain ⟨d', rs, σ, hrun, hstack, -, hd'⟩ :=
    (dictRun_cases (represents_dictCreate d hpos) hops).resolve_left hfull
  exact ⟨d', rs, σ, hrun, hstack, dictSearch_eq hd'⟩

/-- **Partition.** As long as the table does not get full, any sequence of calls on a new
table leaves its elements shared out between the chains of the buckets and the free list,
with at least one of them free; the next insertion takes a free one, and the loops end. -/
theorem dictRun_partition (hash : CStr → ℕ) (d : Dict) {nSize : ℕ} (hpos : 0 < nSize)
    {ops : List DictOp} (hops : Callable (fun _ => 0) ops)
    (hfull : dictRun hash (dictCreate d nSize) ops ≠ .error .full) :
    ∃ d' rs chain free, dictRun hash (dictCreate d nSize) ops = .ok (d', rs) ∧
      d'.size = nSize ∧ d'.Chained hash chain free ∧
      (free.length : ℤ) = nSize - d'.n ∧ 1 ≤ free.length ∧
      (∃ e ∈ free, d'.firstAv = (e : ℤ) ∧ ∀ b < nSize, e ∉ chain b) ∧
      ∀ key, dictSearch hash d' key ≠ .error .endless ∧
        dictDelete hash d' key ≠ .error .endless := by
  obtain ⟨d', rs, σ, hrun, -, hsize, hd'⟩ :=
    (dictRun_cases (represents_dictCreate d hpos) hops).resolve_left hfull
  have hnew : (dictCreate d nSize).size = nSize := by rw [dictCreate, if_neg (by omega)]
  rw [hnew] at hsize
  have hsearch (key : CStr) : dictSearch hash d' key ≠ .error .endless := by
    simp [dictSearch_eq hd' key]
  obtain ⟨chain, free, hchained, -⟩ := hd'
  have hadd := hchained.length_add
  have hcount := hchained.count
  have hnodup := hchained.nodup
  obtain ⟨e, free, rfl, hfirst, -⟩ := hchained.exists_free
  have he : e ∈ e :: free := List.mem_cons_self ..
  refine ⟨d', rs, chain, e :: free, hrun, hsize, hchained, by omega, by simp,
    ⟨e, he, hfirst, fun b hb hmem => ?_⟩,
    fun key => ⟨hsearch key, dictDelete_ne_endless hchained key⟩⟩
  exact (List.nodup_append.mp hnodup).2.2 e
    (Dict.Chained.mem_used (hsize ▸ hb) hmem) e he rfl

end Runs

section Sample

/-- A table of ten elements over cleared memory. -/
def sampleDict : Dict := dictCreate ⟨0, 0, 0, fun _ => 0, fun _ => ⟨0, 0, []⟩⟩ 10

/-- Three records in one bucket, of which the second key is taken out from behind another
one. -/
def sampleOps : List DictOp :=
  [.insert (bytesOf "n0") 5, .insert (bytesOf "n1") 6, .insertAuto (bytesOf "n0"),
    .delete (bytesOf "n1"), .search (bytesOf "n0"), .search (bytesOf "n1")]

/-- The calls keep to what is there. -/
theorem callable_sampleOps : Callable (fun _ => 0) sampleOps :=
  ⟨by decide, by decide, by decide, by decide, trivial⟩

/-- The table does not get full. -/
theorem sampleOps_ne_full : dictRun List.length sampleDict sampleOps ≠ .error .full := by
  have hok : (dictRun List.length sampleDict sampleOps).toOption.isSome := by decide +kernel
  intro hfull
  rw [hfull] at hok
  exact absurd hok (by decide)

/-- The calls answer like the stacks. -/
theorem dictRun_refines_sample :
    ∃ d' rs σ, dictRun List.length sampleDict sampleOps = .ok (d', rs) ∧
      StackRun (fun _ => []) sampleOps rs σ ∧
      ∀ key, dictSearch List.length d' key = .ok ((σ key).head?.getD (-1)) :=
  dictRun_refines List.length _ (by decide) callable_sampleOps sampleOps_ne_full

/-- The ten elements are shared out. -/
theorem dictRun_partition_sample :
    ∃ d' rs chain free, dictRun List.length sampleDict sampleOps = .ok (d', rs) ∧
      d'.size = 10 ∧ d'.Chained List.length chain free ∧
      (free.length : ℤ) = (10 : ℕ) - d'.n ∧ 1 ≤ free.length ∧
      (∃ e ∈ free, d'.firstAv = (e : ℤ) ∧ ∀ b < 10, e ∉ chain b) ∧
      ∀ key, dictSearch List.length d' key ≠ .error .endless ∧
        dictDelete List.length d' key ≠ .error .endless :=
  dictRun_partition List.length _ (by decide) callable_sampleOps sampleOps_ne_full

end Sample

/-! ## Deleting what is not there -/

/-- The table has a record of the key: a bucket leads to an element that holds it. -/
def Dict.HasRecord (d : Dict) (key : CStr) : Prop :=
  ∃ b < d.size, ∃ e, LeadsTo d.next (d.htTable b) e ∧ (d.eltList e).key = key

section Absent

variable {hash : CStr → ℕ} {d d' : Dict} {chain : ℕ → List ℕ} {free : List ℕ}

/-- The table has a record of a key if one is in the chain of the key. -/
theorem Dict.Chained.hasRecord_iff (hd : Dict.Chained hash d chain free) (key : CStr) :
    d.HasRecord key ↔ ∃ e ∈ chain (hash key % d.size), (d.eltList e).key = key := by
  constructor
  · rintro ⟨b, hb, e, hreach, rfl⟩
    have he : e ∈ chain b := ((hd.chain_linked b hb).leadsTo_iff e).mp hreach
    exact ⟨e, hd.home b hb e he ▸ he, rfl⟩
  · rintro ⟨e, he, hkey⟩
    have hb := hd.bucket_lt key
    exact ⟨_, hb, e, ((hd.chain_linked _ hb).leadsTo_iff e).mpr he, hkey⟩

/-- A bucket whose chain is empty holds `-1`, and no other one does. -/
theorem Dict.Chained.htTable_eq_iff (hd : Dict.Chained hash d chain free) {b : ℕ}
    (hb : b < d.size) : d.htTable b = -1 ↔ chain b = [] := by
  have hlinked := hd.chain_linked b hb
  constructor
  · intro hend
    rw [hend] at hlinked
    exact hlinked.eq_nil
  · intro hnil
    rw [hnil] at hlinked
    exact hlinked.eq_neg_one

/-- In an empty bucket `DictDelete` looks at `elt_list[-1]`. -/
theorem dictDelete_of_empty {key : CStr} (hend : d.htTable (hash key % d.size) = -1) :
    dictDelete hash d key = .error .outside := by
  simp [dictDelete, hend, Dict.slot, bind, Except.bind]

/-- An insertion that comes to an end had a key that fits, and room. -/
theorem fits_of_dictInsert (hd : Dict.Chained hash d chain free) {key : CStr} {value e : ℤ}
    (h : dictInsert hash d key value = .ok (d', e)) :
    key.length < maxNameLen ∧ 5 * (d.n + 1) < 4 * d.size := by
  obtain ⟨i, free', rfl, hfirst, -⟩ := hd.exists_free
  have hi : i < d.size := hd.lt_size (List.mem_append_right _ List.mem_cons_self)
  rw [dictInsert_eq hfirst hi] at h
  split_ifs at h with hlong hfull
  exact ⟨Nat.lt_of_not_le hlong, Int.lt_of_not_ge hfull⟩

/-- Any call that comes to an end keeps the shape of the table. -/
theorem chained_dictCall (hd : Dict.Chained hash d chain free) {op : DictOp} {r : Option ℤ}
    (h : dictCall hash d op = .ok (d', r)) :
    ∃ chain' free', Dict.Chained hash d' chain' free' := by
  have hinsert {key : CStr} {value e : ℤ} (h : dictInsert hash d key value = .ok (d', e)) :
      ∃ chain' free', Dict.Chained hash d' chain' free' := by
    obtain ⟨hkey, hroom⟩ := fits_of_dictInsert hd h
    obtain ⟨d'', hins, -, -, chain', free', hd'', -⟩ :=
      represents_dictInsert ⟨chain, free, hd, fun _ => rfl⟩ hkey value hroom
    obtain rfl : d'' = d' := congrArg Prod.fst (Except.ok.inj (hins.symm.trans h))
    exact ⟨chain', free', hd''⟩
  cases op with
  | insert key value =>
      obtain ⟨⟨_, e⟩, hins, hr⟩ := map_eq_ok_iff.mp h
      obtain rfl := congrArg Prod.fst hr
      exact hinsert hins
  | insertAuto key =>
      obtain ⟨⟨_, e⟩, hins, hr⟩ := map_eq_ok_iff.mp h
      obtain rfl := congrArg Prod.fst hr
      exact hinsert hins
  | delete key =>
      obtain ⟨_, hdel, hr⟩ := map_eq_ok_iff.mp h
      obtain rfl := congrArg Prod.fst hr
      have hne : chain (hash key % d.size) ≠ [] := fun hnil => by
        have hend := (hd.htTable_eq_iff (hd.bucket_lt key)).mpr hnil
        exact absurd (hdel.symm.trans (dictDelete_of_empty hend)) nofun
      obtain ⟨d'', e, pre, post, hchain, -, -, hrem, hdel'⟩ | ⟨-, hsame⟩ :=
        dictDelete_cases hd hne
      · obtain rfl := Except.ok.inj (hdel'.symm.trans hdel)
        exact ⟨_, _, hd.removed (hd.bucket_lt key) hchain hrem⟩
      · obtain rfl := Except.ok.inj (hsame.symm.trans hdel)
        exact ⟨chain, free, hd⟩
  | search key =>
      obtain ⟨_, -, hr⟩ := map_eq_ok_iff.mp h
      obtain rfl := congrArg Prod.fst hr
      exact ⟨chain, free, hd⟩

/-- Any sequence of calls that comes to an end keeps the shape of the table. -/
theorem chained_dictRun (hd : Dict.Chained hash d chain free) {ops : List DictOp}
    {rs : List (Option ℤ)} (h : dictRun hash d ops = .ok (d', rs)) :
    ∃ chain' free', Dict.Chained hash d' chain' free' := by
  induction ops generalizing d chain free rs with
  | nil =>
      obtain rfl := congrArg Prod.fst (Except.ok.inj h)
      exact ⟨chain, free, hd⟩
  | cons op ops ih =>
      obtain ⟨⟨d₁, r⟩, hcall, hrest⟩ := bind_eq_ok_iff.mp h
      obtain ⟨⟨d₂, rs'⟩, hrun, heq⟩ := bind_eq_ok_iff.mp hrest
      obtain rfl : d₂ = d' := congrArg Prod.fst (Except.ok.inj heq)
      obtain ⟨chain', free', hd₁⟩ := chained_dictCall hd hcall
      exact ih hd₁ hrun

/-- **Deleting what is not there.** After any sequence of calls on a new table that comes to an
end, `DictDelete` of a key without a record changes nothing exactly if the bucket of the key is
not empty. -/
theorem dictDelete_absent_iff (hash : CStr → ℕ) (d : Dict) {nSize : ℕ} (hpos : 0 < nSize)
    {ops : List DictOp} {rs : List (Option ℤ)}
    (hrun : dictRun hash (dictCreate d nSize) ops = .ok (d', rs)) {key : CStr}
    (habsent : ¬d'.HasRecord key) :
    dictDelete hash d' key = .ok d' ↔ d'.htTable (hash key % d'.size) ≠ -1 := by
  obtain ⟨chain₀, free₀, hnew, -⟩ := @represents_dictCreate hash d nSize hpos
  obtain ⟨chain, free, hd⟩ := chained_dictRun hnew hrun
  rw [hd.hasRecord_iff] at habsent
  constructor
  · intro hdel hend
    exact absurd (hdel.symm.trans (dictDelete_of_empty hend)) nofun
  · intro hbucket
    have hne : chain (hash key % d'.size) ≠ [] := fun hnil =>
      hbucket ((hd.htTable_eq_iff (hd.bucket_lt key)).mpr hnil)
    obtain ⟨_, e, pre, post, hchain, -, hkey, -⟩ | ⟨-, hsame⟩ := dictDelete_cases hd hne
    · exact absurd ⟨e, hchain ▸ List.mem_append_right _ List.mem_cons_self, hkey⟩ habsent
    · exact hsame

/-- A new table has no record. -/
theorem not_hasRecord_sampleDict (key : CStr) : ¬sampleDict.HasRecord key := by
  obtain ⟨chain, free, hd, hσ⟩ := @represents_dictCreate List.length
    ⟨0, 0, 0, fun _ => 0, fun _ => ⟨0, 0, []⟩⟩ 10 (by decide)
  rintro h
  obtain ⟨e, he, hkey⟩ := (hd.hasRecord_iff key).mp h
  have hmem : e ∈ (chain (key.length % 10)).filter fun e => (sampleDict.eltList e).key = key :=
    List.mem_filter.mpr ⟨he, decide_eq_true hkey⟩
  have hnil := List.map_eq_nil_iff.mp (hσ key)
  exact absurd (hnil ▸ hmem) List.not_mem_nil

/-- A table with one record, whose bucket it shares with all keys of length 2. -/
def sampleOne : Dict := sampleDict.link 0 2 (bytesOf "n0") 5

theorem not_hasRecord_sampleOne : ¬sampleOne.HasRecord (bytesOf "n1") := by
  rintro ⟨b, -, e, -, hkey⟩
  by_cases he : e = 0
  · rw [he, sampleOne, Dict.link_eltList_self] at hkey
    exact absurd hkey (by decide)
  · rw [sampleOne, Dict.link_eltList_of_ne he] at hkey
    have hnil : [] = bytesOf "n1" := hkey
    exact absurd hnil (by decide)

/-- The second key of the bucket is passed over. -/
theorem dictDelete_absent_sample :
    dictDelete List.length sampleOne (bytesOf "n1") = .ok sampleOne ↔
      sampleOne.htTable ((bytesOf "n1").length % sampleOne.size) ≠ -1 := by
  have hrun : dictRun List.length sampleDict [.insert (bytesOf "n0") 5] =
      .ok (sampleOne, [some 0]) := rfl
  exact dictDelete_absent_iff List.length _ (by decide) hrun not_hasRecord_sampleOne

/-- A new table has only empty buckets, and the slot in front of its elements is read. -/
theorem dictDelete_new_faults :
    dictRun List.length sampleDict [] = .ok (sampleDict, []) ∧
      ¬sampleDict.HasRecord (bytesOf "n0") ∧
      dictDelete List.length sampleDict (bytesOf "n0") = .error .outside ∧
      dictDelete List.length sampleDict (bytesOf "n0") ≠ .ok sampleDict := by
  have hfault : dictDelete List.length sampleDict (bytesOf "n0") = .error .outside :=
    dictDelete_of_empty rfl
  exact ⟨rfl, not_hasRecord_sampleDict _, hfault, fun h => absurd (hfault.symm.trans h) nofun⟩

end Absent

end Ooops
