import Ooops.Attach
import Ooops.Basis.FloatBits
import Ooops.Basis.Layout

/-!
# The Parameter Area

The library and the command `set_io_param` are two programs, each of which works out by itself
where the values of the parameter block are in `/my_io_param_<uid>`. This module follows both on
the bytes: no two values overlap, a value is read by one program as the other one has stored it,
and what happens on a node is what happens with the block in place of the bytes.

* `paramLayout` is where the pointers of both programs point, `blockOf` what they find there.
* `publishAt`, `updateAt` and `setIoParamAt` are the functions on the bytes; each is the function
  on the block (`blockOf_publishAt`, `updateAt_eq`, `blockOf_setIoParamAt`), and stays in the bytes
  that its program has mapped (`publishAt_of_outside`, `setIoParamAt_of_outside`).
* `areaStep` is a step of a node with the bytes, `area_refines` says that its runs are those of
  `worldStep`.
-/

open Basis

namespace Ooops

/-! ### The layout -/

/-- The values of the area. -/
inductive ParamField
  | tUpdatedParam
  | tThresholdInt64 (op : Op) (i : FsIdx)
  | maxFreqShare (op : Op) (i : FsIdx)
  | pDisabled
  | paramMemReady
  | fsTagList (i : FsIdx)
  | fsTagLen (i : FsIdx)
  | paramFreq
  deriving DecidableEq

namespace ParamField

/-- The arrays for `open` come before those for `stat`. -/
def opNum : Op → ℕ
  | .openFile => 0
  | .lxstat => 1

/-- Where `Init_Shared_Mutex` and `set_io_param` put the pointers. The maximum frequencies are
`float`s in an array with room for twice as many. -/
def offset : ParamField → ℕ
  | tUpdatedParam => 0
  | tThresholdInt64 op i => 8 + 8 * 8 * opNum op + 8 * i
  | maxFreqShare op i => 8 + 8 * 8 * (2 + opNum op) + 4 * i
  | pDisabled => 8 + 8 * 8 * 4
  | paramMemReady => 16 + 8 * 8 * 4
  | fsTagList i => 16 + 8 * 8 * 4 + 8 + i * 16
  | fsTagLen i => 16 + 8 * 8 * 4 + 8 + 8 * 16 + 4 * i
  | paramFreq => 16 + 8 * 8 * 4 + 8 + 8 * 16 + 8 * 4

/-- The sizes of the values. -/
def size : ParamField → ℕ
  | tUpdatedParam | tThresholdInt64 _ _ | pDisabled | paramMemReady => 8
  | maxFreqShare _ _ | fsTagLen _ | paramFreq => 4
  | fsTagList _ => 16

/-- Two values share no byte. -/
theorem apart (f g : ParamField) (h : f ≠ g) :
    f.offset + f.size ≤ g.offset ∨ g.offset + g.size ≤ f.offset := by
  rcases f with _ | ⟨_ | _, i⟩ | ⟨_ | _, i⟩ | _ | _ | i | i | _ <;>
    rcases g with _ | ⟨_ | _, j⟩ | ⟨_ | _, j⟩ | _ | _ | j | j | _ <;>
    simp only [ne_eq, not_true_eq_false, tThresholdInt64.injEq, maxFreqShare.injEq,
      fsTagList.injEq, fsTagLen.injEq, true_and, Fin.ext_iff] at h <;>
    simp only [offset, size, opNum] <;>
    omega

end ParamField

/-- The layout of the area. -/
def paramLayout : Layout ParamField := ⟨ParamField.offset, ParamField.size, ParamField.apart⟩

/-- The bytes that are reserved by the creator. -/
def nSizeSharedParamData : ℕ := 8 * (8 * 4 + 2 + 1) + (16 + 4) * 8 + (4 + 4 * 7)

/-- The bytes that `set_io_param` maps. It has no pointer to the frequency of the CPU. -/
def toolSharedParamData : ℕ := 8 * (8 * 4 + 2 + 1) + (16 + 4) * 8

/-- All values are in the area, and those of `set_io_param` in what it maps. -/
theorem ParamField.end_le (f : ParamField) :
    f.offset + f.size ≤ nSizeSharedParamData ∧
      (f ≠ .paramFreq → f.offset + f.size ≤ toolSharedParamData) := by
  rcases f with _ | ⟨_ | _, i⟩ | ⟨_ | _, i⟩ | _ | _ | i | i | _ <;>
    simp only [offset, size, opNum, nSizeSharedParamData, toolSharedParamData] <;>
    constructor <;>
    try omega
  exact fun h => absurd rfl h

/-! ### The functions on the bytes -/

section Bytes

variable (a : ℕ)

/-- Store an integer, of as many bytes as the value has. -/
def storeInt (f : ParamField) (v : ℕ) : Memory → Memory :=
  paramLayout.put a f (leBytes f.size v)

/-- Store a `float`. -/
def storeFloat (f : ParamField) (x : ℚ) : Memory → Memory := storeInt a f (binary32.toBits x)

def loadInt (m : Memory) (f : ParamField) : ℕ := ofLE (paramLayout.load m a f)

def loadFloat (m : Memory) (f : ParamField) : ℚ := binary32.ofBits (loadInt a m f)

/-- The block that the area at `a` holds. -/
def blockOf (m : Memory) : ParamBlock where
  tUpdatedParam := loadInt a m .tUpdatedParam
  tThresholdInt64 := fun op i => loadInt a m (.tThresholdInt64 op i)
  maxFreqShare := fun op i => loadFloat a m (.maxFreqShare op i)
  pDisabled := loadInt a m .pDisabled
  paramMemReady := loadInt a m .paramMemReady
  fsTagList := fun i => cstrOf (paramLayout.load m a (.fsTagList i))
  fsTagLen := fun i => loadInt a m (.fsTagLen i)
  paramFreq := loadFloat a m .paramFreq

/-- The block as a process reads it: `strcpy` goes up to the first NUL behind the beginning of a
tag, wherever that is. -/
def readBlock (m : Memory) : ParamBlock :=
  { blockOf a m with
    fsTagList := fun i =>
      cstrOf (m.read (a + paramLayout.offset (.fsTagList i))
        (nSizeSharedParamData - paramLayout.offset (.fsTagList i))) }

/-- The servers of a process. -/
def Proc.servers (p : Proc) : List FsIdx := (List.finRange 8).filter fun i => i.val < p.nFsServer

/-- What `Publish_Parameters` of the library stores for one server: `strncpy` writes the tag, and
the NUL goes behind it. -/
def publishServer (p : Proc) (m : Memory) (i : FsIdx) : Memory :=
  let m := storeInt a (.tThresholdInt64 .openFile i) (p.tThresholdInt64 .openFile i) m
  let m := storeInt a (.tThresholdInt64 .lxstat i) (p.tThresholdInt64 .lxstat i) m
  let m := storeFloat a (.maxFreqShare .openFile i) (p.maxFreq .openFile i) m
  let m := storeFloat a (.maxFreqShare .lxstat i) (p.maxFreq .lxstat i) m
  let m := storeInt a (.fsTagLen i) (p.fsTagLen i) m
  let m := paramLayout.put a (.fsTagList i) (strncpy [] (p.szFSTag i) (p.fsTagLen i)) m
  m.write (a + paramLayout.offset (.fsTagList i) + p.fsTagLen i) [0]

/-- `Publish_Parameters` of the library. -/
def publishAt (p : Proc) (rdtscp : ℕ) (m : Memory) : Memory :=
  let m := storeInt a .tUpdatedParam rdtscp m
  let m := storeInt a .pDisabled 0 m
  let m := p.servers.foldl (fun m i => storeInt a (.fsTagLen i) 0 m) m
  let m := p.servers.foldl (publishServer a p) m
  let m := storeFloat a .paramFreq p.freq m
  storeInt a .paramMemReady 1 m

/-- What `Update_Parameters` copies of one server. -/
def updateServer (m : Memory) (p : Proc) (i : FsIdx) : Proc :=
  if loadInt a m (.fsTagLen i) = 0 then p
  else
    { p with
      nFsServer := p.nFsServer + 1
      tThresholdInt64 := fun op =>
        Function.update (p.tThresholdInt64 op) i (loadInt a m (.tThresholdInt64 op i))
      maxFreq := fun op => Function.update (p.maxFreq op) i (loadFloat a m (.maxFreqShare op i))
      szFSTag := Function.update p.szFSTag i
        (cstrOf (m.read (a + paramLayout.offset (.fsTagList i))
          (nSizeSharedParamData - paramLayout.offset (.fsTagList i))))
      fsTagLen := Function.update p.fsTagLen i (loadInt a m (.fsTagLen i)) }

/-- `Update_Parameters`. -/
def updateAt (p : Proc) (m : Memory) : Proc :=
  if loadInt a m .pDisabled = 1 then { p with active := false }
  else
    (List.finRange 8).foldl (updateServer a m)
      { p with
        active := true
        nFsServer := 0
        tUpdatedParam := loadInt a m .tUpdatedParam
        freq := loadFloat a m .paramFreq }

/-- What `Publish_Parameters` of the command stores for one server. -/
def Tool.publishServer (t : Tool) (freq : ℚ) (m : Memory) (i : FsIdx) : Memory :=
  if t.updateFlag i then
    let m := storeInt a (.tThresholdInt64 .openFile i)
      (ticksOf freq ((t.param i).tThreshold .openFile)) m
    let m := storeInt a (.tThresholdInt64 .lxstat i)
      (ticksOf freq ((t.param i).tThreshold .lxstat)) m
    let m := storeFloat a (.maxFreqShare .openFile i) ((t.param i).maxFreq .openFile) m
    storeFloat a (.maxFreqShare .lxstat i) ((t.param i).maxFreq .lxstat) m
  else m

/-- `Publish_Parameters` of the command. -/
def Tool.publishAt (t : Tool) (freq : ℚ) (rdtscp : ℕ) (m : Memory) : Memory :=
  let m := (List.finRange 8).foldl (t.publishServer a freq) m
  let m := storeInt a .pDisabled 0 m
  storeInt a .tUpdatedParam rdtscp m

/-- The arrays of a command that publishes. -/
def Command.tool? (env : ToolEnv) : Command → Option Tool
  | .report | .enable _ | .groups [] => none
  | .groups gs => some (gs.foldl (fun t g => t.set g.1 g.2) Tool.start)
  | .level fsIdx l => env.default?.map fun d => Tool.start.set fsIdx (l.apply (d fsIdx))

/-- What one command does to the area. -/
def setIoParamAt (env : ToolEnv) (c : Command) (rdtscp : ℕ) (m : Memory) : Memory :=
  match c with
  | .enable bEnabled =>
      let m := storeInt a .pDisabled (if bEnabled then 0 else 1) m
      storeInt a .tUpdatedParam rdtscp m
  | c => (c.tool? env).elim m fun t => t.publishAt a env.freq rdtscp m

end Bytes

/-! ### Fields of the bytes -/

section Fields

variable {a : ℕ} {m : Memory}

theorem load_storeInt (f : ParamField) (v : ℕ) (m : Memory) (g : ParamField) :
    paramLayout.load (storeInt a f v m) a g =
      if g = f then leBytes f.size v else paramLayout.load m a g :=
  Layout.load_put_full (length_leBytes _ _) a m g

theorem load_storeFloat (f : ParamField) (x : ℚ) (m : Memory) (g : ParamField) :
    paramLayout.load (storeFloat a f x m) a g =
      if g = f then leBytes f.size (binary32.toBits x) else paramLayout.load m a g :=
  load_storeInt f _ m g

/-- The server that a value belongs to. -/
def ParamField.server? : ParamField → Option FsIdx
  | tThresholdInt64 _ i | maxFreqShare _ i | fsTagList i | fsTagLen i => some i
  | _ => none

/-- The bytes of a value of a process, over what was there. -/
def Proc.bytesFor (p : Proc) (i : FsIdx) : ParamField → List UInt8 → List UInt8
  | .tThresholdInt64 op _, _ => leBytes 8 (p.tThresholdInt64 op i)
  | .maxFreqShare op _, _ => leBytes 4 (binary32.toBits (p.maxFreq op i))
  | .fsTagLen _, _ => leBytes 4 (p.fsTagLen i)
  | .fsTagList _, slot => (strncpy slot (p.szFSTag i) (p.fsTagLen i)).set (p.fsTagLen i) 0
  | _, old => old

theorem length_strncpy_nil (tag : CStr) (n : ℕ) : (strncpy [] tag n).length = n := by
  simp only [strncpy, List.length_append, List.length_take, List.length_replicate,
    List.drop_nil, List.length_nil]
  omega

/-- The bytes that `strncpy` writes, the NUL, and the rest of the slot. -/
theorem strncpy_set_eq {slot : List UInt8} {n : ℕ} (hn : n < slot.length) (tag : CStr) :
    (strncpy slot tag n).set n 0 = strncpy [] tag n ++ [0] ++ slot.drop (n + 1) := by
  have hsplit : strncpy slot tag n = strncpy [] tag n ++ slot.drop n := by
    simp only [strncpy, List.drop_nil, List.append_nil]
  have hlen := length_strncpy_nil tag n
  rw [hsplit, List.set_append_right _ _ hlen.le, hlen, Nat.sub_self, List.drop_eq_getElem_cons hn,
    List.set_cons_zero, List.append_assoc, List.singleton_append]

/-- Writing a tag and the NUL behind it. -/
theorem load_writeTag {tag : CStr} {n : ℕ} (hn : n < 16) (i : FsIdx) (m : Memory)
    (f : ParamField) :
    paramLayout.load ((paramLayout.put a (.fsTagList i) (strncpy [] tag n) m).write
        (a + paramLayout.offset (.fsTagList i) + n) [0]) a f =
      if f = .fsTagList i then (strncpy (paramLayout.load m a f) tag n).set n 0
      else paramLayout.load m a f := by
  have hlen : (strncpy [] tag n ++ [0]).length = n + 1 := by
    rw [List.length_append, length_strncpy_nil, List.length_singleton]
  have happend := Memory.write_append m (a + paramLayout.offset (.fsTagList i))
    (strncpy [] tag n) [0]
  have hput := Layout.load_put (L := paramLayout) (f := .fsTagList i) (hlen.trans_le hn) a m f
  rw [length_strncpy_nil] at happend
  rw [Layout.put] at hput ⊢
  rw [happend, hput, hlen]
  split_ifs with hf
  · rw [strncpy_set_eq]
    rw [Layout.length_load, hf]
    exact hn
  · rfl

/-- **One server** of the library. -/
theorem load_publishServer {p : Proc} {i : FsIdx} (hn : p.fsTagLen i < 16) (m : Memory)
    (f : ParamField) :
    paramLayout.load (publishServer a p m i) a f =
      if f.server? = some i then p.bytesFor i f (paramLayout.load m a f)
      else paramLayout.load m a f := by
  simp only [publishServer, load_writeTag hn, load_storeInt, load_storeFloat]
  cases f with
  | tThresholdInt64 op j => cases op <;> simp [ParamField.server?, Proc.bytesFor, ParamField.size]
  | maxFreqShare op j => cases op <;> simp [ParamField.server?, Proc.bytesFor, ParamField.size]
  | fsTagList j =>
      by_cases hj : j = i
      · simp [hj, ParamField.server?, Proc.bytesFor]
      · simp [hj, ParamField.server?]
  | fsTagLen j => simp [ParamField.server?, Proc.bytesFor, ParamField.size]
  | tUpdatedParam => rfl
  | pDisabled => rfl
  | paramMemReady => rfl
  | paramFreq => rfl

theorem nodup_servers (p : Proc) : p.servers.Nodup :=
  (List.nodup_finRange 8).filter _

theorem mem_servers {p : Proc} {i : FsIdx} : i ∈ p.servers ↔ i.val < p.nFsServer := by
  simp [Proc.servers]

/-- What `Publish_Parameters` of the library leaves of a value. -/
def Proc.published (p : Proc) (rdtscp : ℕ) : ParamField → List UInt8 → List UInt8
  | .tUpdatedParam, _ => leBytes 8 rdtscp
  | .pDisabled, _ => leBytes 8 0
  | .paramMemReady, _ => leBytes 8 1
  | .paramFreq, _ => leBytes 4 (binary32.toBits p.freq)
  | f, old =>
      match f.server? with
      | some i => if i.val < p.nFsServer then p.bytesFor i f old else old
      | none => old

/-- The first loop of `Publish_Parameters` clears the lengths of the tags. -/
theorem load_clearLens (p : Proc) (m : Memory) (f : ParamField) :
    paramLayout.load (p.servers.foldl (fun m i => storeInt a (.fsTagLen i) 0 m) m) a f =
      match f with
      | .fsTagLen i => if i.val < p.nFsServer then leBytes 4 0 else paramLayout.load m a f
      | _ => paramLayout.load m a f := by
  have hloop := Layout.load_foldl (L := paramLayout) (a := a) (l := p.servers)
    (fun m i => storeInt a (.fsTagLen i) 0 m) ParamField.server?
    (fun _ f old => match f with
      | .fsTagLen _ => leBytes 4 0
      | _ => old) (fun i _ m f => by
        simp only [load_storeInt]
        cases f <;> simp [ParamField.server?, ParamField.size]) (nodup_servers p) m f
  rw [hloop]
  cases f <;> simp [ParamField.server?, mem_servers]

/-- **`Publish_Parameters` of the library**, value by value. -/
theorem load_publishAt {p : Proc} (hlen : ∀ i : FsIdx, i.val < p.nFsServer → p.fsTagLen i < 16)
    (rdtscp : ℕ) (m : Memory) (f : ParamField) :
    paramLayout.load (publishAt a p rdtscp m) a f =
      p.published rdtscp f (paramLayout.load m a f) := by
  have hloop := Layout.load_foldl (publishServer a p) ParamField.server? p.bytesFor
    (fun i hi m f => load_publishServer (hlen i (mem_servers.mp hi)) m f) (nodup_servers p)
  simp only [publishAt, load_storeInt, load_storeFloat, hloop, load_clearLens, mem_servers]
  cases f with
  | tThresholdInt64 op i | maxFreqShare op i =>
      simp [Proc.published, ParamField.server?]
  | fsTagList i => simp [Proc.published, ParamField.server?]
  | fsTagLen i =>
      simp only [Proc.published, ParamField.server?, reduceCtorEq, if_false]
      split_ifs <;> rfl
  | tUpdatedParam | pDisabled | paramMemReady | paramFreq =>
      simp [Proc.published, ParamField.server?, ParamField.size]

/-- The values of a process that can be stored: integers of 64 bits, `float`s, and tags that are
strings of which at most 15 bytes are kept. -/
structure Proc.Storable (p : Proc) : Prop where
  threshold : ∀ op i, i.val < p.nFsServer → p.tThresholdInt64 op i < 2 ^ 64
  maxFreq : ∀ op i, i.val < p.nFsServer → binary32.Holds |p.maxFreq op i|
  freq : binary32.Holds |p.freq|
  tag : ∀ i, i.val < p.nFsServer → (0 : UInt8) ∉ p.szFSTag i
  len : ∀ i, i.val < p.nFsServer → p.fsTagLen i = fsTagLenOf (p.szFSTag i)

theorem Proc.Storable.fsTagLen_lt {p : Proc} (h : p.Storable) (i : FsIdx)
    (hi : i.val < p.nFsServer) : p.fsTagLen i < 16 := by
  rw [h.len i hi]
  exact (fsTagLenOf_bounds _).2

/-- An integer is read as it was stored. -/
theorem ofLE_leBytes_eq {k n : ℕ} (h : n < 256 ^ k) : ofLE (leBytes k n) = n := by
  rw [ofLE_leBytes, Nat.mod_eq_of_lt h]

/-- A `float` is. -/
theorem ofBits_leBytes {x : ℚ} (h : binary32.Holds |x|) :
    binary32.ofBits (ofLE (leBytes 4 (binary32.toBits x))) = x := by
  have hlt := FloatFormat.toBits_lt h
  rw [FloatFormat.signBit_binary32] at hlt
  rw [ofLE_leBytes_eq (by omega), FloatFormat.ofBits_toBits h]

/-- **Publishing** on the bytes is publishing in the block. -/
theorem blockOf_publishAt {p : Proc} (h : p.Storable) {rdtscp : ℕ} (htsc : rdtscp < 2 ^ 64)
    (m : Memory) :
    blockOf a (publishAt a p rdtscp m) = (publishParameters p (blockOf a m) rdtscp).2 := by
  have hlen := h.fsTagLen_lt
  simp only [blockOf, publishParameters, loadInt, loadFloat, load_publishAt hlen,
    Proc.published, ParamField.server?, ParamBlock.mk.injEq]
  refine ⟨ofLE_leBytes_eq htsc, ?_, ?_, by decide, by decide, ?_, ?_, ofBits_leBytes h.freq⟩
  · funext op i
    split_ifs with hi
    · exact ofLE_leBytes_eq (h.threshold op i hi)
    · rfl
  · funext op i
    split_ifs with hi
    · exact ofBits_leBytes (h.maxFreq op i hi)
    · rfl
  · funext i
    split_ifs with hi
    · simp only [Proc.bytesFor, h.len i hi]
      exact (tagSlot_spec (Layout.length_load _ _ _) (h.tag i hi)).2
    · rfl
  · funext i
    split_ifs with hi
    · exact ofLE_leBytes_eq ((hlen i hi).trans (by decide))
    · rfl

/-- A server without a tag is passed over by the loop of `Update_Parameters`. -/
theorem copied_cons_of_eq {β : Type*} {len : FsIdx → ℕ} {i : FsIdx} (hi : len i = 0)
    (l : List FsIdx) (j : FsIdx) (x y : β) :
    (if j ∈ i :: l ∧ len j ≠ 0 then x else y) = if j ∈ l ∧ len j ≠ 0 then x else y := by
  by_cases hj : j = i
  · subst hj
    simp [hi]
  · simp [hj]

/-- The value of one with a tag is taken over. -/
theorem copied_cons_of_ne {β : Type*} {len : FsIdx → ℕ} {i : FsIdx} (hi : len i ≠ 0)
    (l : List FsIdx) (g f : FsIdx → β) (j : FsIdx) :
    (if j ∈ i :: l ∧ len j ≠ 0 then g j else f j) =
      if j ∈ l ∧ len j ≠ 0 then g j else Function.update f i (g i) j := by
  by_cases hj : j = i
  · subst hj
    simp [hi]
  · simp [hj]

/-- The loop of `Update_Parameters`. -/
theorem foldl_updateServer (l : List FsIdx) (p : Proc) :
    l.foldl (updateServer a m) p =
      { p with
        nFsServer := p.nFsServer + l.countP fun i => (readBlock a m).fsTagLen i ≠ 0
        tThresholdInt64 := fun op i =>
          if i ∈ l ∧ (readBlock a m).fsTagLen i ≠ 0 then (readBlock a m).tThresholdInt64 op i
          else p.tThresholdInt64 op i
        maxFreq := fun op i =>
          if i ∈ l ∧ (readBlock a m).fsTagLen i ≠ 0 then (readBlock a m).maxFreqShare op i
          else p.maxFreq op i
        szFSTag := fun i =>
          if i ∈ l ∧ (readBlock a m).fsTagLen i ≠ 0 then (readBlock a m).fsTagList i
          else p.szFSTag i
        fsTagLen := fun i =>
          if i ∈ l ∧ (readBlock a m).fsTagLen i ≠ 0 then (readBlock a m).fsTagLen i
          else p.fsTagLen i } := by
  induction l generalizing p with
  | nil => simp
  | cons i l ih =>
      have hlen : loadInt a m (.fsTagLen i) = (readBlock a m).fsTagLen i := rfl
      rw [List.foldl_cons, ih, List.countP_cons]
      by_cases hz : (readBlock a m).fsTagLen i = 0
      · have hsame : updateServer a m p i = p := if_pos hz
        simp only [hsame, copied_cons_of_eq hz, hz, ne_eq, not_true_eq_false, decide_false,
          Bool.false_eq_true, if_false, Nat.add_zero]
      · simp only [copied_cons_of_ne hz, updateServer, hlen, hz, if_false, ne_eq,
          not_false_eq_true, decide_true, if_true, Nat.add_assoc, Nat.add_comm 1]
        rfl

/-- **Copying** the area is copying the block that is read. -/
theorem updateAt_eq (m : Memory) (p : Proc) :
    updateAt a p m = updateParameters p (readBlock a m) := by
  have hlen : loadInt a m .pDisabled = (readBlock a m).pDisabled := rfl
  rw [updateAt, updateParameters, hlen, foldl_updateServer]
  split_ifs with hdis
  · rfl
  · simp only [List.mem_finRange, true_and, Nat.zero_add, ite_not]
    rfl

/-- Every tag ends in its slot. -/
def Terminated (a : ℕ) (m : Memory) : Prop :=
  ∀ i, (0 : UInt8) ∈ paramLayout.load m a (.fsTagList i)

/-- Then `strcpy` reads what is in the slot. -/
theorem Terminated.strcpy_eq (h : Terminated a m) (i : FsIdx) :
    cstrOf (m.read (a + paramLayout.offset (.fsTagList i))
        (nSizeSharedParamData - paramLayout.offset (.fsTagList i))) =
      cstrOf (paramLayout.load m a (.fsTagList i)) := by
  have hend : paramLayout.offset (.fsTagList i) + paramLayout.size (.fsTagList i) ≤
    nSizeSharedParamData := (ParamField.end_le (.fsTagList i)).1
  have hsize : nSizeSharedParamData - paramLayout.offset (.fsTagList i) =
      paramLayout.size (.fsTagList i) + (nSizeSharedParamData -
        paramLayout.offset (.fsTagList i) - paramLayout.size (.fsTagList i)) := by omega
  obtain ⟨rest, hrest⟩ := exists_eq_cstrOf_append (h i)
  rw [hsize, Memory.read_add]
  change cstrOf (paramLayout.load m a (.fsTagList i) ++ _) = _
  generalize paramLayout.load m a (.fsTagList i) = slot at hrest
  calc cstrOf (slot ++ _) = cstrOf (cstrOf slot ++ 0 :: (rest ++ _)) := by
        rw [← List.cons_append, ← List.append_assoc, ← hrest]
    _ = cstrOf slot := cstrOf_append_zero (zero_not_mem_cstrOf slot) _

/-- So a process reads the block that the area holds. -/
theorem Terminated.readBlock_eq (h : Terminated a m) : readBlock a m = blockOf a m := by
  rw [readBlock, funext h.strcpy_eq]
  rfl

/-! ### The command -/

/-- What a command puts in the place of the values of a server. -/
def Tool.bytesFor (t : Tool) (freq : ℚ) (i : FsIdx) : ParamField → List UInt8 → List UInt8
  | .tThresholdInt64 op _, old =>
      if t.updateFlag i then leBytes 8 (ticksOf freq ((t.param i).tThreshold op)) else old
  | .maxFreqShare op _, old =>
      if t.updateFlag i then leBytes 4 (binary32.toBits ((t.param i).maxFreq op)) else old
  | _, old => old

/-- One server of the command. -/
theorem load_publishServer_tool (t : Tool) (freq : ℚ) (i : FsIdx) (m : Memory)
    (f : ParamField) :
    paramLayout.load (t.publishServer a freq m i) a f =
      if f.server? = some i then t.bytesFor freq i f (paramLayout.load m a f)
      else paramLayout.load m a f := by
  rw [Tool.publishServer]
  split_ifs with hflag hf hf
  · simp only [load_storeInt, load_storeFloat]
    cases f with
    | tThresholdInt64 op j =>
        obtain rfl := Option.some.inj hf
        cases op <;> simp [Tool.bytesFor, hflag, ParamField.size]
    | maxFreqShare op j =>
        obtain rfl := Option.some.inj hf
        cases op <;> simp [Tool.bytesFor, hflag, ParamField.size]
    | fsTagList j | fsTagLen j => rfl
    | tUpdatedParam | pDisabled | paramMemReady | paramFreq => rfl
  · simp only [load_storeInt, load_storeFloat]
    cases f with
    | tThresholdInt64 op j | maxFreqShare op j =>
        have hj : j ≠ i := fun h => hf (congrArg some h)
        simp [hj]
    | fsTagList j | fsTagLen j => rfl
    | tUpdatedParam | pDisabled | paramMemReady | paramFreq => rfl
  · cases f <;> simp [Tool.bytesFor, hflag]
  · rfl

/-- **`Publish_Parameters` of the command**, value by value. -/
theorem load_publishAt_tool (t : Tool) (freq : ℚ) (rdtscp : ℕ) (m : Memory) (f : ParamField) :
    paramLayout.load (t.publishAt a freq rdtscp m) a f =
      match f with
      | .tUpdatedParam => leBytes 8 rdtscp
      | .pDisabled => leBytes 8 0
      | .tThresholdInt64 _ i | .maxFreqShare _ i =>
          t.bytesFor freq i f (paramLayout.load m a f)
      | _ => paramLayout.load m a f := by
  have hloop := Layout.load_foldl (t.publishServer a freq) ParamField.server? (t.bytesFor freq)
    (fun i _ m f => load_publishServer_tool t freq i m f) (List.nodup_finRange 8) m
  simp only [Tool.publishAt, load_storeInt, hloop, List.mem_finRange, if_true]
  cases f <;> rfl

/-- The values of a command that can be stored. -/
structure Tool.Storable (t : Tool) (freq : ℚ) : Prop where
  threshold : ∀ op i, t.updateFlag i = true → ticksOf freq ((t.param i).tThreshold op) < 2 ^ 64
  maxFreq : ∀ op i, t.updateFlag i = true → binary32.Holds |(t.param i).maxFreq op|

/-- **Publishing by a command** on the bytes is publishing in the block. -/
theorem blockOf_publishAt_tool {t : Tool} {freq : ℚ} (h : t.Storable freq) {rdtscp : ℕ}
    (htsc : rdtscp < 2 ^ 64) (m : Memory) :
    blockOf a (t.publishAt a freq rdtscp m) = t.publishParameters freq (blockOf a m) rdtscp := by
  simp only [blockOf, Tool.publishParameters, loadInt, loadFloat, load_publishAt_tool,
    Tool.bytesFor, ParamBlock.mk.injEq, and_true]
  refine ⟨ofLE_leBytes_eq htsc, ?_, ?_, by decide⟩
  · funext op i
    split_ifs with hi
    · exact ofLE_leBytes_eq (h.threshold op i hi)
    · rfl
  · funext op i
    split_ifs with hi
    · exact ofBits_leBytes (h.maxFreq op i hi)
    · rfl

/-- The values of a command line can be stored. -/
def Command.Storable (env : ToolEnv) (c : Command) : Prop :=
  ∀ t ∈ c.tool? env, t.Storable env.freq

/-- **A command** on the bytes is the command on the block. -/
theorem blockOf_setIoParamAt {env : ToolEnv} {c : Command} (h : c.Storable env) {rdtscp : ℕ}
    (htsc : rdtscp < 2 ^ 64) (m : Memory) :
    blockOf a (setIoParamAt a env c rdtscp m) = setIoParam env c (blockOf a m) rdtscp := by
  cases c with
  | report => rfl
  | enable bEnabled =>
      simp only [setIoParamAt, setIoParam, blockOf, loadInt, loadFloat, load_storeInt,
        ParamBlock.mk.injEq, reduceCtorEq, if_false, if_true, and_true, true_and]
      refine ⟨ofLE_leBytes_eq htsc, ?_⟩
      cases bEnabled <;> decide
  | groups gs =>
      cases gs with
      | nil => rfl
      | cons g gs => exact blockOf_publishAt_tool (h _ rfl) htsc m
  | level fsIdx l =>
      cases hd : env.default? with
      | none =>
          simp only [setIoParamAt, Command.tool?, setIoParam, hd, Option.map_none,
            Option.elim_none]
      | some d =>
          have ht : (Command.level fsIdx l).tool? env =
              some (Tool.start.set fsIdx (l.apply (d fsIdx))) := by
            rw [Command.tool?, hd, Option.map_some]
          simp only [setIoParamAt, setIoParam, hd, ht, Option.elim_some]
          exact blockOf_publishAt_tool (h _ ht) htsc m

/-- No command touches the bytes of a tag. -/
theorem Terminated.setIoParamAt (h : Terminated a m) (env : ToolEnv) (c : Command)
    (rdtscp : ℕ) : Terminated a (setIoParamAt a env c rdtscp m) := by
  intro i
  have htag := h i
  cases c with
  | enable bEnabled => simpa only [Ooops.setIoParamAt, load_storeInt, reduceCtorEq, if_false]
  | report | groups _ | level _ _ =>
      simp only [Ooops.setIoParamAt]
      cases Command.tool? env _ with
      | none => exact htag
      | some t => rwa [Option.elim_some, load_publishAt_tool]

/-! ### Nothing else is touched -/

/-- A store of an integer stays in the area. -/
theorem storeInt_of_outside {f : ParamField} {n x : ℕ} (hend : f.offset + f.size ≤ n)
    (hx : x < a ∨ a + n ≤ x) (v : ℕ) (m : Memory) : storeInt a f v m x = m x :=
  Layout.put_of_outside hend (length_leBytes _ _).le hx m

theorem storeFloat_of_outside {f : ParamField} {n x : ℕ} (hend : f.offset + f.size ≤ n)
    (hx : x < a ∨ a + n ≤ x) (y : ℚ) (m : Memory) : storeFloat a f y m x = m x :=
  storeInt_of_outside hend hx _ m

/-- **The library** stays in the bytes that it has reserved. -/
theorem publishAt_of_outside {p : Proc}
    (hlen : ∀ i : FsIdx, i.val < p.nFsServer → p.fsTagLen i < 16) {x : ℕ}
    (hx : x < a ∨ a + nSizeSharedParamData ≤ x) (rdtscp : ℕ) (m : Memory) :
    publishAt a p rdtscp m x = m x := by
  have hstore := fun f v m => storeInt_of_outside (ParamField.end_le f).1 hx v m
  have hfloat := fun f y m => storeFloat_of_outside (ParamField.end_le f).1 hx y m
  have hserver : ∀ i ∈ p.servers, ∀ m, publishServer a p m i x = m x := by
    intro i hi m
    have hi' := hlen i (mem_servers.mp hi)
    have htag : paramLayout.offset (.fsTagList i) + 16 ≤ nSizeSharedParamData :=
      (ParamField.end_le (.fsTagList i)).1
    rw [publishServer, Memory.write_of_outside (by simp only [List.length_singleton]; omega),
      Layout.put, Memory.write_of_outside (by rw [length_strncpy_nil]; omega)]
    simp only [hstore, hfloat]
  simp only [publishAt, hstore, hfloat]
  rw [Memory.foldl_of_outside hserver, Memory.foldl_of_outside fun i _ m => hstore _ _ m]
  simp only [hstore]

/-- **The command** stays in the bytes that it has mapped, which end before the frequency. -/
theorem setIoParamAt_of_outside {x : ℕ} (hx : x < a ∨ a + toolSharedParamData ≤ x)
    (env : ToolEnv) (c : Command) (rdtscp : ℕ) (m : Memory) :
    setIoParamAt a env c rdtscp m x = m x := by
  have hstore := fun f hf v m => storeInt_of_outside ((ParamField.end_le f).2 hf) hx v m
  have hfloat := fun f hf y m => storeFloat_of_outside ((ParamField.end_le f).2 hf) hx y m
  have hpublish (t : Tool) : t.publishAt a env.freq rdtscp m x = m x := by
    have hserver : ∀ i ∈ List.finRange 8, ∀ m, t.publishServer a env.freq m i x = m x := by
      intro i _ m
      rw [Tool.publishServer]
      split_ifs
      · simp only [hstore, hfloat, ne_eq, reduceCtorEq, not_false_eq_true]
      · rfl
    simp only [Tool.publishAt, hstore, ne_eq, reduceCtorEq, not_false_eq_true]
    exact Memory.foldl_of_outside hserver m
  have hother (t? : Option Tool) :
      t?.elim m (fun t => t.publishAt a env.freq rdtscp m) x = m x := by
    cases t? with
    | none => rfl
    | some t => exact hpublish t
  cases c with
  | enable bEnabled =>
      simp only [setIoParamAt, hstore, ne_eq, reduceCtorEq, not_false_eq_true]
  | report => rfl
  | groups gs => exact hother ((Command.groups gs).tool? env)
  | level fsIdx l => exact hother ((Command.level fsIdx l).tool? env)

end Fields

/-! ### The node -/

/-- A node with the area in place of the block. -/
structure AreaWorld where
  created : Bool
  mem : Memory
  procs : ℕ → Option Proc
  shm : Shm
  now : ℚ
  tsc : ℕ

/-- A node on which nothing has run yet. -/
def AreaWorld.init (mem : Memory) : AreaWorld := ⟨false, mem, fun _ => none, Shm.zero, 0, 0⟩

section Node

variable (a : ℕ)

/-- The node with the block that its area holds. -/
def AreaWorld.toWorld (s : AreaWorld) : World where
  param? := if s.created then some (blockOf a s.mem) else none
  procs := s.procs
  shm := s.shm
  now := s.now
  tsc := s.tsc

/-- What `ftruncate` leaves of a new segment. -/
def zeroed (m : Memory) : Memory := m.write a (List.replicate nSizeSharedParamData 0)

/-- `Init_Shared_Mutex` on the bytes. -/
def initSharedMutexAt (p : Proc) (config? : Option Config) (created : Bool) (rdtscp : ℕ)
    (m : Memory) : Option (Proc × Memory) :=
  if created then
    if loadInt a m .paramMemReady = 0 then none else some (updateAt a p m, m)
  else
    let p := readConfig? p config?
    some ({ p with active := true }, publishAt a p rdtscp (zeroed a m))

/-- One step of the node. A call reads the area in `Update_Parameters` only, and so as
`readBlock` says. -/
def areaStep (s : AreaWorld) : WorldAct → Option AreaWorld
  | .startUp pid env wait =>
      if (s.procs pid).isSome then none
      else
        (initSharedMutexAt a (Proc.exec env.script?) env.config? s.created (s.tsc + wait + 1)
          s.mem).map fun r =>
            { s with
              created := true
              mem := r.2
              procs := Function.update s.procs pid
                (some (updateCWD { r.1 with shmReady := true } env.cwd))
              tsc := s.tsc + wait + 1 }
  | .command env c wait =>
      some { s with
        mem := if s.created then setIoParamAt a env c (s.tsc + wait + 1) s.mem else s.mem
        tsc := s.tsc + wait + 1 }
  | .act pid act =>
      match s.procs pid, s.created with
      | some p, true =>
          let v := act.run ⟨p, readBlock a s.mem, s.shm, s.now⟩
          some { s with
            procs := Function.update s.procs pid (some v.proc)
            shm := v.shm
            now := v.now }
      | _, _ => none

end Node

/-- The values of a configuration can be stored. -/
structure Config.Storable (c : Config) : Prop where
  freq : binary32.Holds |c.freq|
  tag : ∀ r ∈ c.records, (0 : UInt8) ∉ r.tag
  threshold : ∀ r ∈ c.records, ∀ op, ticksOf c.freq (r.tThreshold op) < 2 ^ 64
  maxFreq : ∀ r ∈ c.records, ∀ op, binary32.Holds |r.maxFreq op|

/-- The values that a step stores fit their places: those of the configuration if the process
creates the area, those of a command line, and the time stamp. -/
def AreaWorld.Storable (s : AreaWorld) : WorldAct → Prop
  | .startUp _ env wait =>
      s.tsc + wait + 1 < 2 ^ 64 ∧ (s.created = false → ∀ c ∈ env.config?, c.Storable)
  | .command env c wait => s.tsc + wait + 1 < 2 ^ 64 ∧ c.Storable env
  | .act _ _ => True

section Refinement

variable {a : ℕ}

theorem holds_zero : binary32.Holds |(0 : ℚ)| := by
  rw [abs_zero]
  exact ⟨zpow_pos two_pos _, 0, binary32.emin, Nat.two_pow_pos _, le_rfl, by simp⟩

/-- What a fresh process has read can be published. -/
theorem storable_readConfig? (script? : Option CStr) {config? : Option Config}
    (h : ∀ c ∈ config?, c.Storable) : (readConfig? (Proc.exec script?) config?).Storable := by
  cases config? with
  | none =>
      have hn (i : FsIdx) : ¬i.val < (readConfig? (Proc.exec script?) none).nFsServer :=
        Nat.not_lt_zero _
      have hfreq : (readConfig? (Proc.exec script?) none).freq = 0 := by
        cases script? <;> rfl
      refine ⟨fun _ i hi => absurd hi (hn i), fun _ i hi => absurd hi (hn i), ?_,
        fun i hi => absurd hi (hn i), fun i hi => absurd hi (hn i)⟩
      rw [hfreq]
      exact holds_zero
  | some c =>
      have hc := h c rfl
      have hget (i : FsIdx) (hi : i.val < c.records.length) :
          c.records[i.val]? = some c.records[i.val] := List.getElem?_eq_getElem hi
      refine ⟨fun op i hi => ?_, fun op i hi => ?_, hc.freq, fun i hi => ?_,
        (hasRecords_readConfig _ c).len⟩ <;>
        simp only [readConfig?, readConfig, hget i hi, Option.map_some, Option.getD_some]
      · exact hc.threshold _ (List.getElem_mem hi) op
      · exact hc.maxFreq _ (List.getElem_mem hi) op
      · exact hc.tag _ (List.getElem_mem hi)

/-- The values of a zeroed area. -/
theorem load_zeroed (m : Memory) (f : ParamField) :
    paramLayout.load (zeroed a m) a f = List.replicate f.size 0 := by
  have hend : paramLayout.offset f + paramLayout.size f ≤ nSizeSharedParamData := f.end_le.1
  have hzeros := Memory.read_write_self (fun _ => 0) 0 (List.replicate f.size 0)
  rw [List.length_replicate] at hzeros
  rw [← hzeros]
  refine Memory.read_congr fun i hi => ?_
  have hi' : paramLayout.offset f + i <
      (List.replicate nSizeSharedParamData (0 : UInt8)).length := by
    rw [List.length_replicate]
    exact (Nat.add_lt_add_left hi _).trans_le hend
  rw [zeroed, Nat.add_assoc, Memory.write_add _ _ hi', Memory.write_add _ _ (by
    rwa [List.length_replicate]), List.getElem_replicate, List.getElem_replicate]

theorem ofLE_replicate_zero (n : ℕ) : ofLE (List.replicate n 0) = 0 := by
  induction n with
  | zero => rfl
  | succ n ih => rw [List.replicate_succ, ofLE_cons, ih, UInt8.toNat_zero]

/-- A zeroed area holds the zeroed block. -/
theorem blockOf_zeroed (m : Memory) : blockOf a (zeroed a m) = ParamBlock.zero := by
  simp only [blockOf, loadInt, loadFloat, load_zeroed, ofLE_replicate_zero,
    FloatFormat.ofBits_zero, ParamBlock.zero]
  rfl

theorem terminated_zeroed (m : Memory) : Terminated a (zeroed a m) := by
  intro i
  rw [load_zeroed]
  exact List.mem_replicate.mpr ⟨(by decide : 16 ≠ 0), rfl⟩

/-- The tags of a published area end in their slots. -/
theorem Terminated.publishAt {p : Proc} (h : p.Storable) {m : Memory} (hm : Terminated a m)
    (rdtscp : ℕ) : Terminated a (publishAt a p rdtscp m) := by
  have hlen := h.fsTagLen_lt
  intro i
  rw [load_publishAt hlen]
  simp only [Proc.published, ParamField.server?]
  split_ifs with hi
  · have hslot : p.fsTagLen i < (paramLayout.load m a (.fsTagList i)).length := by
      rw [Layout.length_load]
      exact hlen i hi
    rw [Proc.bytesFor, strncpy_set_eq hslot]
    simp
  · exact hm i

/-- What holds of the bytes in every run: the tags of the area end in their slots, and all other
bytes are those of the beginning. -/
structure AreaOk (a : ℕ) (mem : Memory) (s : AreaWorld) : Prop where
  terminated : s.created = true → Terminated a s.mem
  outside : ∀ x, x < a ∨ a + nSizeSharedParamData ≤ x → s.mem x = mem x

theorem AreaOk.init (mem : Memory) : AreaOk a mem (AreaWorld.init mem) :=
  ⟨nofun, fun _ _ => rfl⟩

/-- What a start-up does to the bytes. -/
theorem initSharedMutexAt_bytes {script? : Option CStr} {config? : Option Config}
    {created : Bool} {rdtscp : ℕ} {m : Memory} {r : Proc × Memory}
    (hm : created = true → Terminated a m) (hfit : created = false → ∀ c ∈ config?, c.Storable)
    (h : initSharedMutexAt a (Proc.exec script?) config? created rdtscp m = some r) :
    Terminated a r.2 ∧ ∀ x, x < a ∨ a + nSizeSharedParamData ≤ x → r.2 x = m x := by
  rw [initSharedMutexAt] at h
  cases created with
  | true =>
      rw [if_pos rfl] at h
      split_ifs at h
      obtain rfl := Option.some.inj h
      exact ⟨hm rfl, fun _ _ => rfl⟩
  | false =>
      have hp := storable_readConfig? script? (hfit rfl)
      rw [if_neg Bool.false_ne_true, Option.some.injEq] at h
      subst h
      refine ⟨(terminated_zeroed m).publishAt hp _, fun x hx => ?_⟩
      refine (publishAt_of_outside hp.fsTagLen_lt hx rdtscp _).trans ?_
      refine Memory.write_of_outside ?_
      rwa [List.length_replicate]

/-- **A start-up on the bytes** is the start-up on the block. -/
theorem map_initSharedMutexAt (script? : Option CStr) {config? : Option Config}
    {created : Bool} {rdtscp : ℕ} {m : Memory} (hm : created = true → Terminated a m)
    (hfit : created = false → ∀ c ∈ config?, c.Storable) (htsc : rdtscp < 2 ^ 64) :
    (initSharedMutexAt a (Proc.exec script?) config? created rdtscp m).map
        (fun r => (r.1, blockOf a r.2)) =
      initSharedMutex (Proc.exec script?) config?
        (if created then some (blockOf a m) else none) rdtscp := by
  rw [initSharedMutexAt]
  cases created with
  | true =>
      have hread := (hm rfl).readBlock_eq
      have hready : loadInt a m .paramMemReady = (blockOf a m).paramMemReady := rfl
      simp only [if_true, initSharedMutex, updateAt_eq, hread, hready]
      split_ifs
      · rfl
      · simp only [Option.map_some]
  | false =>
      have hp := storable_readConfig? script? (hfit rfl)
      rw [if_neg Bool.false_ne_true, if_neg Bool.false_ne_true, initSharedMutex, Option.map_some,
        blockOf_publishAt hp htsc, blockOf_zeroed]
      rfl

/-- **Every step keeps the bytes.** -/
theorem AreaOk.step {mem : Memory} {s s' : AreaWorld} {act : WorldAct} (h : AreaOk a mem s)
    (hfit : s.Storable act) (hs : areaStep a s act = some s') : AreaOk a mem s' := by
  cases act with
  | startUp pid env wait =>
      simp only [areaStep] at hs
      split at hs
      · cases hs
      obtain ⟨r, hr, rfl⟩ := Option.map_eq_some_iff.mp hs
      obtain ⟨hterm, hout⟩ := initSharedMutexAt_bytes h.terminated hfit.2 hr
      exact ⟨fun _ => hterm, fun x hx => (hout x hx).trans (h.outside x hx)⟩
  | command env c wait =>
      obtain rfl := Option.some.inj hs
      refine ⟨fun hcreated => ?_, fun x hx => ?_⟩
      · change Terminated a (if s.created then _ else _)
        rw [if_pos hcreated]
        exact (h.terminated hcreated).setIoParamAt env c _
      · have hmapped : x < a ∨ a + toolSharedParamData ≤ x :=
          hx.imp_right (le_trans (Nat.add_le_add_left (by decide) a))
        change (if s.created then _ else _ : Memory) x = mem x
        split_ifs
        · rw [setIoParamAt_of_outside hmapped]
          exact h.outside x hx
        · exact h.outside x hx
  | act pid act =>
      simp only [areaStep] at hs
      split at hs
      · obtain rfl := Option.some.inj hs
        exact ⟨h.terminated, h.outside⟩
      · cases hs

/-- An action of a process leaves the block alone. -/
theorem param_run (act : ProcAction) (v : View) : (act.run v).param = v.param := by
  cases act with
  | call hook e => exact (hook.run_settings v e).1
  | chdir dir => rfl

/-- **Every step on the bytes** is the step on the block. -/
theorem toWorld_areaStep {mem : Memory} {s : AreaWorld} {act : WorldAct} (h : AreaOk a mem s)
    (hfit : s.Storable act) :
    (areaStep a s act).map (AreaWorld.toWorld a) = worldStep (s.toWorld a) act := by
  cases act with
  | startUp pid env wait =>
      have hinit := map_initSharedMutexAt env.script? h.terminated hfit.2 hfit.1
      have hparam : (s.toWorld a).param? = if s.created then some (blockOf a s.mem) else none := rfl
      have hprocs : (s.toWorld a).procs = s.procs := rfl
      have htsc : (s.toWorld a).tsc = s.tsc := rfl
      simp only [areaStep, worldStep, Ooops.init, hparam, hprocs, htsc, ← hinit]
      cases (s.procs pid).isSome with
      | true => rfl
      | false =>
          simp only [Bool.false_eq_true, if_false, Option.map_map]
          rfl
  | command env c wait =>
      have hcommand := blockOf_setIoParamAt (a := a) hfit.2 hfit.1 s.mem
      simp only [areaStep, worldStep, Option.map_some, AreaWorld.toWorld]
      cases s.created with
      | true => simp only [if_true, hcommand, Option.map_some]
      | false => rfl
  | act pid act =>
      simp only [areaStep, worldStep, AreaWorld.toWorld]
      cases hp : s.procs pid with
      | none => rfl
      | some p =>
          cases hcreated : s.created with
          | false => rfl
          | true =>
              have hkeep := param_run act ⟨p, blockOf a s.mem, s.shm, s.now⟩
              simp only [(h.terminated hcreated).readBlock_eq, if_true, Option.map_some, hkeep,
                AreaWorld.toWorld]

/-- **The area is the block.** In every run of a node whose values can be stored, what the
library and the command do with the bytes is what they do with the block, and they touch no byte
outside of the area. -/
theorem area_refines {mem : Memory} {as : List WorldAct}
    (h : Along (areaStep a) AreaWorld.Storable (AreaWorld.init mem) as) :
    (runSteps (areaStep a) (AreaWorld.init mem) as).map (AreaWorld.toWorld a) =
        runSteps worldStep World.init as ∧
      ∀ s, runSteps (areaStep a) (AreaWorld.init mem) as = some s →
        ∀ x, x < a ∨ a + nSizeSharedParamData ≤ x → s.mem x = mem x := by
  refine ⟨?_, fun s hrun => ?_⟩
  · exact map_runSteps (I := AreaOk a mem) (fun _ _ _ hI hP hs => hI.step hP hs)
      (fun _ _ hI hP => toWorld_areaStep hI hP) h (AreaOk.init mem)
  · exact (invariant_of_runSteps (AreaOk.init mem) (fun _ _ _ hI hP hs => hI.step hP hs) h
      hrun).outside

/-- The ticks of the time stamp counter that a step takes. -/
def WorldAct.ticks : WorldAct → ℕ
  | .startUp _ _ wait | .command _ _ wait => wait + 1
  | .act _ _ => 0

theorem tsc_areaStep {s s' : AreaWorld} {act : WorldAct} (hs : areaStep a s act = some s') :
    s'.tsc = s.tsc + act.ticks := by
  cases act with
  | startUp pid env wait =>
      simp only [areaStep] at hs
      split at hs
      · cases hs
      · obtain ⟨r, -, rfl⟩ := Option.map_eq_some_iff.mp hs
        rfl
  | command env c wait =>
      obtain rfl := Option.some.inj hs
      rfl
  | act pid act =>
      simp only [areaStep] at hs
      split at hs
      · obtain rfl := Option.some.inj hs
        rfl
      · cases hs

/-- Values that can be stored in any case. -/
def WorldAct.Storable : WorldAct → Prop
  | .startUp _ env _ => ∀ c ∈ env.config?, c.Storable
  | .command env c _ => c.Storable env
  | .act _ _ => True

/-- A run with such values fits as long as the counter does not overflow. -/
theorem along_storable {s : AreaWorld} {as : List WorldAct} (hval : ∀ act ∈ as, act.Storable)
    (htsc : s.tsc + (as.map WorldAct.ticks).sum < 2 ^ 64) :
    Along (areaStep a) AreaWorld.Storable s as := by
  induction as generalizing s with
  | nil => trivial
  | cons act as ih =>
      obtain ⟨hact, hrest⟩ := List.forall_mem_cons.mp hval
      rw [List.map_cons, List.sum_cons] at htsc
      refine ⟨?_, fun s' hs => ih hrest ?_⟩
      · cases act with
        | startUp pid env wait =>
            simp only [WorldAct.ticks] at htsc
            exact ⟨by omega, fun _ => hact⟩
        | command env c wait =>
            simp only [WorldAct.ticks] at htsc
            exact ⟨by omega, hact⟩
        | act pid act => trivial
      · rw [tsc_areaStep hs]
        omega

/-- One process creates the area, the user sets the values of the server, and another process
starts. -/
def areaRun : List WorldAct :=
  [.startUp 0 scratchStart 0,
   .command plainTool (.groups [(0, ⟨fun _ => 600, fun _ => 500⟩)]) 0,
   .startUp 1 scratchStart 0]

theorem storable_scratchConfig : scratchConfig.Storable := by
  refine ⟨?_, ?_, ?_, ?_⟩
  · exact ⟨by norm_num [scratchConfig, binary32], 5078125, 9, by decide, by decide,
      by norm_num [scratchConfig]⟩
  · exact List.forall_mem_singleton.mpr (by decide)
  · exact List.forall_mem_singleton.mpr fun _ => by norm_num [scratchConfig, ticksOf]
  · exact List.forall_mem_singleton.mpr fun _ =>
      ⟨by norm_num [binary32], 1000, 0, by decide, by decide, by norm_num⟩

/-- The bytes of that run, in a memory of arbitrary contents. -/
theorem area_refines_areaRun :
    (runSteps (areaStep 4096) (AreaWorld.init fun _ => 255) areaRun).map
        (AreaWorld.toWorld 4096) =
      runSteps worldStep World.init areaRun := by
  have htool : (Command.groups [(0, ⟨fun _ => 600, fun _ => 500⟩)]).Storable plainTool := by
    have hparam (i : FsIdx) (h : (Tool.start.set 0
        ⟨fun _ => 600, fun _ => 500⟩).updateFlag i = true) : i = 0 := by
      revert i
      decide
    rintro t ⟨⟩
    refine ⟨fun op i hi => ?_, fun op i hi => ?_⟩
    · obtain rfl := hparam i hi
      norm_num [Tool.set, ticksOf, plainTool]
    · obtain rfl := hparam i hi
      exact ⟨by norm_num [Tool.set, binary32], 500, 0, by decide, by decide,
        by norm_num [Tool.set]⟩
  have hstart : (WorldAct.startUp 0 scratchStart 0).Storable := by
    rintro c ⟨⟩
    exact storable_scratchConfig
  have hval : ∀ act ∈ areaRun, act.Storable := by
    simp only [areaRun, List.forall_mem_cons, List.not_mem_nil, false_imp_iff, implies_true]
    exact ⟨hstart, htool, hstart, trivial⟩
  exact (area_refines (along_storable hval (by decide))).1

end Refinement

end Ooops
