import Ooops.Basis.KnownText
import Ooops.JobScript

/-!
# The Filter for the Output of tcsh

In a job of `tcsh` the write calls of the shell are hooked, to keep back what it prints about the
daemon in the background: the first write, if it starts with `[1]`, and later those that start
with `[1]  + Done` and name `ooopsd`. The tests are made with functions of `string.h`, which do
not know how many bytes are written.

A buffer is the memory from `buf` on, as far as it can be read; no decision stands for a test that
goes on behind it. The number of calls is exact.

* `myWrite_same_iff`: the decision about one call is a matter of the data alone exactly if the
  data alone decide.
* `myWrites_same_iff`: the same for all calls of a process, with the condition on the data.
-/

open Basis

namespace Ooops

/-- What `my_write` does with the data: it returns `count` and writes nothing, or it leaves them to
the real `write`. -/
inductive WriteDecision
  | suppress
  | realWrite
  deriving DecidableEq

/-- `my_write`, with the value of `nWriteCount` before the call. -/
def myWrite (iShellType : Option Shell) (nWriteCount : ℕ) (buf : List UInt8) :
    Option WriteDecision :=
  if iShellType = some .tcsh then
    let nWriteCount := nWriteCount + 1
    if nWriteCount = 1 then
      (startsWith (bytesOf "[1]") buf).map fun b => if b then .suppress else .realWrite
    else
      (startsWith (bytesOf "[1]  + Done") buf).bind fun b =>
        if b then
          (strstrAt (bytesOf "ooopsd") buf).map fun r =>
            if r.isSome then .suppress else .realWrite
        else some .realWrite
  else some .realWrite

/-- The decisions about the calls in a `tcsh` process, up to one that cannot be made. -/
def myWrites : ℕ → List (List UInt8) → List (Option WriteDecision)
  | _, [] => []
  | nWriteCount, buf :: bufs =>
      match myWrite (some .tcsh) nWriteCount buf with
      | none => [none]
      | some d => some d :: myWrites (nWriteCount + 1) bufs

/-- The data of a call that decide about it. -/
def Decides (nWriteCount : ℕ) (data : List UInt8) : Prop :=
  if nWriteCount = 0 then ¬EndsWithin (bytesOf "[1]") data
  else
    ¬EndsWithin (bytesOf "[1]  + Done") data ∧
      (bytesOf "[1]  + Done" <+: data → 0 ∈ data ∨ bytesOf "ooopsd" <:+: data)

section

variable {nWriteCount : ℕ} {data : List UInt8}

/-- The data decide if there is a decision with nothing behind them. -/
theorem myWrite_isSome_iff :
    (myWrite (some .tcsh) nWriteCount data).isSome = true ↔ Decides nWriteCount data := by
  rw [myWrite, if_pos rfl, Decides]
  by_cases h0 : nWriteCount = 0
  · rw [if_pos (by omega), if_pos h0, Option.isSome_map, ← Option.ne_none_iff_isSome,
      ne_eq, startsWith_eq_none_iff]
  · rw [if_neg (by omega), if_neg h0, ← startsWith_eq_none_iff,
      ← startsWith_eq_true_iff]
    cases hres : startsWith (bytesOf "[1]  + Done") data with
    | none => simp
    | some b =>
        cases b with
        | false => simp
        | true =>
            have hnone := @strstrAt_eq_none_iff (bytesOf "ooopsd") data (by decide)
            rw [Option.bind_some, if_pos rfl, Option.isSome_map, ← Option.ne_none_iff_isSome,
              ne_eq, hnone]
            simp only [reduceCtorEq, not_false_eq_true, forall_const, true_and]
            rw [not_and_or, not_not, not_not]

/-- What is behind the data has no part in a decision that they make. -/
theorem myWrite_append {d : WriteDecision} (h : myWrite (some .tcsh) nWriteCount data = some d)
    (tail : List UInt8) : myWrite (some .tcsh) nWriteCount (data ++ tail) = some d := by
  rw [myWrite, if_pos rfl] at h ⊢
  by_cases h0 : nWriteCount = 0
  · rw [if_pos (by omega)] at h ⊢
    obtain ⟨b, hb, rfl⟩ := Option.map_eq_some_iff.mp h
    rw [startsWith_append hb]
    rfl
  · rw [if_neg (by omega)] at h ⊢
    obtain ⟨b, hb, h⟩ := Option.bind_eq_some_iff.mp h
    rw [startsWith_append hb, Option.bind_some]
    cases b with
    | false => exact h
    | true =>
        rw [if_pos rfl] at h
        obtain ⟨r, hr, rfl⟩ := Option.map_eq_some_iff.mp h
        rw [if_pos rfl, strstrAt_append hr (by decide) (by decide)]
        rfl

/-- Where the data do not decide, what is behind them does. -/
theorem myWrite_of_none (h : myWrite (some .tcsh) nWriteCount data = none) :
    ∃ tail tail', myWrite (some .tcsh) nWriteCount (data ++ tail) = some .suppress ∧
      myWrite (some .tcsh) nWriteCount (data ++ tail') = some .realWrite := by
  simp only [myWrite, if_true] at h ⊢
  by_cases h0 : nWriteCount = 0
  · simp only [h0, zero_add, if_true] at h ⊢
    obtain ⟨hno, hyes⟩ := startsWith_of_none (Option.map_eq_none_iff.mp h) (by decide)
    exact ⟨_, [0], by rw [hyes]; rfl, by rw [hno]; rfl⟩
  · simp only [Nat.add_eq_right, h0, if_false] at h ⊢
    cases hres : startsWith (bytesOf "[1]  + Done") data with
    | none =>
        obtain ⟨hno, -⟩ := startsWith_of_none hres (by decide)
        obtain ⟨⟨rest, hrest⟩, -⟩ := startsWith_eq_none_iff.mp hres
        refine ⟨rest ++ bytesOf "ooopsd", [0], ?_, by rw [hno]; rfl⟩
        rw [← List.append_assoc, hrest]
        decide
    | some b =>
        cases b with
        | false => exact absurd (hres ▸ h) nofun
        | true =>
            rw [hres, Option.bind_some, if_pos rfl, Option.map_eq_none_iff] at h
            obtain ⟨hno, i, hyes⟩ := strstrAt_of_none h (by decide) (by decide)
            refine ⟨bytesOf "ooopsd", [0], ?_, ?_⟩
            · rw [startsWith_append hres, Option.bind_some, if_pos rfl, hyes]
              rfl
            · rw [startsWith_append hres, Option.bind_some, if_pos rfl, hno]
              rfl

/-- **The decision about one call** is a matter of the data alone exactly if they decide. -/
theorem myWrite_same_iff :
    (∀ tail tail', myWrite (some .tcsh) nWriteCount (data ++ tail) =
        myWrite (some .tcsh) nWriteCount (data ++ tail')) ↔ Decides nWriteCount data := by
  rw [← myWrite_isSome_iff]
  constructor
  · intro h
    by_contra hnone
    obtain ⟨tail, tail', ht, ht'⟩ := myWrite_of_none (Option.not_isSome_iff_eq_none.mp hnone)
    exact absurd (ht.symm.trans ((h tail tail').trans ht')) nofun
  · intro h tail tail'
    obtain ⟨d, hd⟩ := Option.isSome_iff_exists.mp h
    rw [myWrite_append hd, myWrite_append hd]

end

/-! ### All calls of a process -/

/-- The buffers of several calls: the data, and what is behind them in memory. -/
def buffers (ds tails : List (List UInt8)) : List (List UInt8) := ds.zipWith (· ++ ·) tails

section

variable {nWriteCount : ℕ} {buf data : List UInt8} {bufs ds : List (List UInt8)}

theorem head_myWrites :
    (myWrites nWriteCount (buf :: bufs)).head? = some (myWrite (some .tcsh) nWriteCount buf) := by
  rw [myWrites]
  cases myWrite (some .tcsh) nWriteCount buf <;> rfl

theorem myWrites_cons {d : WriteDecision} (h : myWrite (some .tcsh) nWriteCount buf = some d) :
    myWrites nWriteCount (buf :: bufs) = some d :: myWrites (nWriteCount + 1) bufs := by
  rw [myWrites, h]

/-- Where the data of one call decide about it, the other calls are left. -/
theorem myWrites_buffers_cons {d : WriteDecision}
    (h : myWrite (some .tcsh) nWriteCount data = some d) (tail : List UInt8)
    (tails : List (List UInt8)) :
    myWrites nWriteCount (buffers (data :: ds) (tail :: tails)) =
      some d :: myWrites (nWriteCount + 1) (buffers ds tails) :=
  myWrites_cons (myWrite_append h tail)

/-- The filter from one of the calls on: the data decide about this one and about the others. -/
theorem myWrites_same_from_iff :
    (∀ tails tails', tails.length = ds.length → tails'.length = ds.length →
        myWrites nWriteCount (buffers ds tails) = myWrites nWriteCount (buffers ds tails')) ↔
      ∀ p ∈ ds.zipIdx nWriteCount, Decides p.2 p.1 := by
  induction ds generalizing nWriteCount with
  | nil => simp [buffers]
  | cons data ds ih =>
      rw [List.zipIdx_cons, List.forall_mem_cons, ← ih]
      constructor
      · intro h
        -- the first decision is seen whatever stands behind the data of the other calls
        have hfirst : Decides nWriteCount data := by
          refine myWrite_same_iff.mp fun tail tail' => ?_
          have hsame := congrArg List.head? (h (tail :: List.replicate ds.length [])
            (tail' :: List.replicate ds.length []) (by simp) (by simp))
          exact Option.some.inj (head_myWrites.symm.trans (hsame.trans head_myWrites))
        obtain ⟨d, hd⟩ := Option.isSome_iff_exists.mp (myWrite_isSome_iff.mpr hfirst)
        refine ⟨hfirst, fun tails tails' ht ht' => ?_⟩
        have hsame := h ([] :: tails) ([] :: tails') (by simp [ht]) (by simp [ht'])
        rw [myWrites_buffers_cons hd, myWrites_buffers_cons hd] at hsame
        exact (List.cons.inj hsame).2
      · rintro ⟨hfirst, hrest⟩ tails tails' ht ht'
        obtain ⟨d, hd⟩ := Option.isSome_iff_exists.mp (myWrite_isSome_iff.mpr hfirst)
        obtain ⟨tail, tails, rfl⟩ := List.exists_cons_of_length_eq_add_one ht
        obtain ⟨tail', tails', rfl⟩ := List.exists_cons_of_length_eq_add_one ht'
        rw [myWrites_buffers_cons hd, myWrites_buffers_cons hd,
          hrest tails tails' (Nat.succ.inj ht) (Nat.succ.inj ht')]

end

/-- **The filter looks at what is written** exactly in the processes of `tcsh` where the data of
every call decide about it. -/
theorem myWrites_same_iff (ds : List (List UInt8)) :
    (∀ tails tails', tails.length = ds.length → tails'.length = ds.length →
        myWrites 0 (buffers ds tails) = myWrites 0 (buffers ds tails')) ↔
      ∀ p ∈ ds.zipIdx, Decides p.2 p.1 :=
  myWrites_same_from_iff

/-- The two bytes `[1` as a first write, with two memories behind them. -/
theorem myWrites_differ :
    myWrites 0 (buffers [bytesOf "[1"] [bytesOf "]"]) ≠
      myWrites 0 (buffers [bytesOf "[1"] [bytesOf " "]) := by
  decide

end Ooops
