import Mathlib.Data.List.Nodup
import Ooops.Dict

/-!
# The Host List

The daemon reads the names of its hosts from a file, one a line, and gives each the number
of its line as its rank: the local host comes first. `readHostList` counts the lines in one
read of the file, cuts the buffer into that many strings and enters them into a hash table.

* `HostList` is a list of hosts as the daemon is meant to get it, `HostFile` one of any length
  whose file fits the buffer.
* `readHostList_hostFile`: the names of such a file are all entered, without reaching the exit
  for a full table, and every one is found at the number of its line and nothing else is found.
-/

open Basis

namespace Ooops

/-- `MAX_CLIENTS`. -/
def maxClients : ℕ := 8192

/-- `MAX_NODE_NAME_LEN`. -/
def maxNodeNameLen : ℕ := 16

/-- The line feed. -/
def newline : UInt8 := 10

/-- The strings that start at `pNewLine`, each one past the NUL of the one before. -/
def nodeNames : ℕ → List UInt8 → List CStr
  | 0, _ => []
  | n + 1, pNewLine =>
      let name := pNewLine.takeWhile (· ≠ 0)
      name :: nodeNames n (pNewLine.drop (name.length + 1))

/-- Enter names into the table from rank `nodeIdx` on. -/
def insertNodes (hash : CStr → ℕ) : Dict → List CStr → ℕ → Except DictError Dict
  | d, [], _ => return d
  | d, name :: names, nodeIdx => do
      let r ← dictInsert hash d name nodeIdx
      insertNodes hash r.1 names (nodeIdx + 1)

/-- `Read_Host_List`: the group size and the table, over whatever the allocated memory
holds. -/
def readHostList (hash : CStr → ℕ) (mem : Dict) (file : List UInt8) :
    Except DictError (ℕ × Dict) := do
  let pBuff := file.take (maxClients * maxNodeNameLen)
  let gsize := pBuff.count newline
  let pBuff := pBuff.map fun c => if c = newline then 0 else c
  let d ← insertNodes hash (dictCreate mem (gsize * 2)) (nodeNames gsize pBuff) 0
  return (gsize, d)

/-- A host name: 1 to 15 characters, none of them blank or NUL. -/
structure IsHostName (name : CStr) : Prop where
  ne_nil : name ≠ []
  length_lt : name.length < maxNodeNameLen
  visible : ∀ c ∈ name, isSpace c = false ∧ c ≠ 0

instance (name : CStr) : Decidable (IsHostName name) :=
  have := List.decidableBAll (fun c => isSpace c = false ∧ c ≠ 0) name
  decidable_of_iff
    (name ≠ [] ∧ name.length < maxNodeNameLen ∧ ∀ c ∈ name, isSpace c = false ∧ c ≠ 0)
    ⟨fun h => ⟨h.1, h.2.1, h.2.2⟩, fun h => ⟨h.ne_nil, h.length_lt, h.visible⟩⟩

/-- The hosts of a job, the local one first. -/
structure HostList where
  names : List CStr
  hostName : ∀ name ∈ names, IsHostName name
  nodup : names.Nodup
  ne_nil : names ≠ []
  length_le : names.length ≤ maxClients

namespace HostList

/-- The host file: every name on a line of its own. -/
def file (hosts : HostList) : List UInt8 := hosts.names.flatMap fun name => name ++ [newline]

/-- What the table is to answer with: the rank of a host, nothing for other names. -/
def ranks (hosts : HostList) (name : CStr) : List ℤ :=
  if name ∈ hosts.names then [(hosts.names.idxOf name : ℤ)] else []

end HostList

/-- The hosts of a file that fits the buffer it is read into. -/
structure HostFile where
  names : List CStr
  hostName : ∀ name ∈ names, IsHostName name
  nodup : names.Nodup
  ne_nil : names ≠ []
  length_file_le :
    (names.flatMap fun name => name ++ [newline]).length ≤ maxClients * maxNodeNameLen

namespace HostFile

/-- Every name on a line of its own. -/
def file (hosts : HostFile) : List UInt8 := hosts.names.flatMap fun name => name ++ [newline]

/-- The number of the line of a host, `-1` for any other name. -/
def rank (hosts : HostFile) (name : CStr) : ℤ :=
  if name ∈ hosts.names then (hosts.names.idxOf name : ℤ) else -1

end HostFile

/-! ## Reading the file -/

section Read

variable {names : List CStr}

/-- A line feed is no character of a name. -/
theorem IsHostName.newline_not_mem {name : CStr} (h : IsHostName name) : newline ∉ name := by
  intro hc
  have hblank := (h.visible newline hc).1
  revert hblank
  decide

/-- A host file has a line feed for every name. -/
theorem count_newline (h : ∀ name ∈ names, IsHostName name) :
    (names.flatMap fun name => name ++ [newline]).count newline = names.length := by
  induction names with
  | nil => rfl
  | cons name names ih =>
      obtain ⟨hname, hnames⟩ := List.forall_mem_cons.mp h
      have hzero : name.count newline = 0 := List.count_eq_zero.mpr hname.newline_not_mem
      simp only [List.flatMap_cons, List.count_append, hzero, ih hnames,
        List.count_singleton_self, List.length_cons]
      omega

/-- A host file is no longer than the buffer it is read into. -/
theorem length_file_le (h : ∀ name ∈ names, IsHostName name) :
    (names.flatMap fun name => name ++ [newline]).length ≤ names.length * maxNodeNameLen := by
  induction names with
  | nil => simp
  | cons name names ih =>
      obtain ⟨hname, hnames⟩ := List.forall_mem_cons.mp h
      have hlt := hname.length_lt
      have hrest := ih hnames
      simp only [List.flatMap_cons, List.length_append, List.length_cons, List.length_nil,
        Nat.add_mul]
      omega

/-- The strings of the buffer are the names. -/
theorem nodeNames_file (h : ∀ name ∈ names, IsHostName name) :
    nodeNames names.length ((names.flatMap fun name => name ++ [newline]).map
      fun c => if c = newline then 0 else c) = names := by
  induction names with
  | nil => rfl
  | cons name names ih =>
      obtain ⟨hname, hnames⟩ := List.forall_mem_cons.mp h
      have hsame : (name.map fun c => if c = newline then 0 else c) = name := by
        conv_rhs => rw [← List.map_id name]
        refine List.map_congr_left fun c hc => if_neg ?_
        rintro rfl
        exact hname.newline_not_mem hc
      have htake (rest : List UInt8) :
          (name ++ 0 :: rest).takeWhile (fun c => decide (c ≠ 0)) = name := by
        rw [List.takeWhile_append_of_pos fun c hc => by simpa using (hname.visible c hc).2]
        simp
      have hdrop (rest : List UInt8) : (name ++ 0 :: rest).drop (name.length + 1) = rest := by
        rw [← List.drop_drop, List.drop_left]
        rfl
      simp only [List.flatMap_cons, List.map_append, hsame, List.append_assoc, List.map_cons,
        if_true, List.singleton_append, List.length_cons, nodeNames, htake,
        hdrop, ih hnames]

/-- Entering distinct names gives every one its rank. -/
theorem represents_insertNodes {hash : CStr → ℕ} {d : Dict} {σ : CStr → List ℤ}
    (hd : d.Represents hash σ) {n : ℕ} (h : ∀ name ∈ names, IsHostName name)
    (hnodup : names.Nodup) (hnew : ∀ name ∈ names, σ name = [])
    (hroom : 5 * (d.n + names.length) < 4 * d.size) :
    ∃ d', insertNodes hash d names n = .ok d' ∧ d'.Represents hash fun name =>
      if name ∈ names then [((n + names.idxOf name : ℕ) : ℤ)] else σ name := by
  induction names generalizing d σ n with
  | nil => exact ⟨d, rfl, by simpa using hd⟩
  | cons name names ih =>
      obtain ⟨hname, hnames⟩ := List.forall_mem_cons.mp h
      obtain ⟨hmem, hnodup⟩ := List.nodup_cons.mp hnodup
      rw [List.length_cons] at hroom
      obtain ⟨d₁, hins, hsize, hn, hd₁⟩ :=
        represents_dictInsert hd hname.length_lt (n : ℤ) (by omega)
      have hnew₁ : ∀ x ∈ names, Function.update σ name ((n : ℤ) :: σ name) x = [] := by
        intro x hx
        rw [Function.update_of_ne fun hxn : x = name => hmem (hxn ▸ hx)]
        exact hnew x (List.mem_cons_of_mem name hx)
      obtain ⟨d', hrest, hd'⟩ := ih hd₁ (n := n + 1) hnames hnodup hnew₁ (by omega)
      refine ⟨d', by simp [insertNodes, hins, bind, Except.bind, hrest], ?_⟩
      convert hd' using 1
      funext x
      by_cases hx : x = name
      · subst hx
        rw [if_pos (List.mem_cons_self ..), if_neg hmem, List.idxOf_cons_self,
          Function.update_self, hnew x (List.mem_cons_self ..), Nat.add_zero]
      · rw [Function.update_of_ne hx]
        by_cases hxs : x ∈ names
        · rw [if_pos (List.mem_cons_of_mem name hxs), if_pos hxs,
            List.idxOf_cons_ne _ fun e => hx e.symm]
          congr 2
          omega
        · rw [if_neg hxs, if_neg fun hc => (List.mem_cons.mp hc).elim hx hxs]

/-- The lines that are counted are in the buffer. -/
theorem readHostList_gsize_le {hash : CStr → ℕ} {mem : Dict} {file : List UInt8}
    {r : ℕ × Dict} (h : readHostList hash mem file = .ok r) :
    r.1 ≤ maxClients * maxNodeNameLen := by
  have hcount : (file.take (maxClients * maxNodeNameLen)).count newline ≤
      maxClients * maxNodeNameLen :=
    Nat.le_trans List.count_le_length (List.length_take_le ..)
  simp only [readHostList, bind, Except.bind] at h
  split at h
  · exact absurd h (by simp)
  · rw [← Except.ok.inj h]
    exact hcount

/-- **`Read_Host_List`** enters every host of a file at the number of its line. -/
theorem readHostList_hostFile (hash : CStr → ℕ) (mem : Dict) (hosts : HostFile) :
    ∃ d, readHostList hash mem hosts.file = .ok (hosts.names.length, d) ∧
      d.Represents hash fun name =>
        if name ∈ hosts.names then [(hosts.names.idxOf name : ℤ)] else [] := by
  have hle : hosts.file.length ≤ maxClients * maxNodeNameLen := hosts.length_file_le
  have hpos : 0 < hosts.names.length := List.length_pos_iff.mpr hosts.ne_nil
  have hnew : (dictCreate mem (hosts.names.length * 2)).Represents hash fun _ => [] :=
    represents_dictCreate mem (by omega)
  have hsize : (dictCreate mem (hosts.names.length * 2)).size = hosts.names.length * 2 ∧
      (dictCreate mem (hosts.names.length * 2)).n = 0 := by
    rw [dictCreate, if_neg (by omega)]
    exact ⟨rfl, rfl⟩
  obtain ⟨d, hins, hd⟩ := represents_insertNodes hnew (n := 0) hosts.hostName hosts.nodup
    (fun _ _ => rfl) (by rw [hsize.1, hsize.2]; omega)
  simp only [Nat.zero_add] at hd
  refine ⟨d, ?_, hd⟩
  have hnames : nodeNames hosts.names.length
      (hosts.file.map fun c => if c = newline then 0 else c) = hosts.names :=
    nodeNames_file hosts.hostName
  have hcount : hosts.file.count newline = hosts.names.length := count_newline hosts.hostName
  simp [readHostList, List.take_of_length_le hle, hcount, hnames, hins, bind, Except.bind,
    pure, Except.pure]

/-- As many hosts as there can be clients fit the buffer. -/
def HostList.toHostFile (hosts : HostList) : HostFile where
  names := hosts.names
  hostName := hosts.hostName
  nodup := hosts.nodup
  ne_nil := hosts.ne_nil
  length_file_le :=
    Nat.le_trans (length_file_le hosts.hostName) (Nat.mul_le_mul_right _ hosts.length_le)

/-- The hosts of a job are entered at their ranks. -/
theorem readHostList_file (hash : CStr → ℕ) (mem : Dict) (hosts : HostList) :
    ∃ d, readHostList hash mem hosts.file = .ok (hosts.names.length, d) ∧
      d.Represents hash hosts.ranks :=
  readHostList_hostFile hash mem hosts.toHostFile

end Read

end Ooops
