import Mathlib.Data.List.Find
import Ooops.Propagation

/-!
# Publishing and Attaching

The process that creates the parameter segment keeps the tags as it has read them; every
process that attaches later gets what was copied into the slots of the segment, at most 15
bytes of each tag. Both compare a path with the stored length of a tag only, so that they
attribute it to the same server (`attach_agrees`).

* `tagSlot_spec` is about the bytes: the copy stays in its slot of 16 bytes, and the string
  that `strcpy` finds there is the one of the model.
* `firstTag_congr`: the attribution of a path depends on the prefixes that are compared.
-/

open Basis

namespace Ooops

/-! ### The bytes of a slot -/

/-- What `Publish_Parameters` leaves in the slot of a tag: `strncpy`, and a NUL behind it. -/
def tagSlot (slot : List UInt8) (tag : CStr) : List UInt8 :=
  (strncpy slot tag (fsTagLenOf tag)).set (fsTagLenOf tag) 0

/-- A stored length is that of a prefix of the tag that leaves room for the NUL. -/
theorem fsTagLenOf_bounds (tag : CStr) : fsTagLenOf tag ≤ tag.length ∧ fsTagLenOf tag < 16 := by
  rw [fsTagLenOf]
  split <;> omega

/-- The slot keeps its size, and `strcpy` reads the stored prefix out of it. -/
theorem tagSlot_spec {slot : List UInt8} {tag : CStr} (hslot : slot.length = 16)
    (htag : 0 ∉ tag) :
    (tagSlot slot tag).length = 16 ∧ cstrOf (tagSlot slot tag) = tag.take (fsTagLenOf tag) := by
  obtain ⟨hle, hlt⟩ := fsTagLenOf_bounds tag
  constructor
  · rw [tagSlot, List.length_set, length_strncpy tag (by omega), hslot]
  · exact cstrOf_strncpy_set htag hle (by omega)

/-! ### Attribution -/

/-- Two processes that compare the same prefixes find the same server. -/
theorem firstTag_congr {p q : Proc} (hn : p.nFsServer = q.nFsServer) {s : CStr}
    (h : ∀ i : FsIdx, i.val < p.nFsServer →
      strncmpEq s (p.szFSTag i) (p.fsTagLen i) = strncmpEq s (q.szFSTag i) (q.fsTagLen i)) :
    firstTag p s = firstTag q s := by
  refine List.find?_congr fun i _ => ?_
  by_cases hi : i.val < p.nFsServer
  · rw [h i hi, hn]
  · rw [← hn, decide_eq_false hi, Bool.false_and, Bool.false_and]

/-- The server of a path follows from its first tag and from that of the directory. -/
theorem checkFSServer_congr {p q : Proc} {s : CStr} (h : firstTag p s = firstTag q s)
    (hcwd : p.idxFsServerCWD = q.idxFsServerCWD) :
    (checkFSServer p s).idxFsServer = (checkFSServer q s).idxFsServer := by
  rw [checkFSServer, checkFSServer, h, hcwd]
  split
  · rfl
  · split <;> rfl

/-! ### Two processes -/

/-- The process holds at most eight records, with tags and the stored lengths of these. -/
structure Proc.HasRecords (p : Proc) : Prop where
  le : p.nFsServer ≤ 8
  tag_ne_nil : ∀ i : FsIdx, i.val < p.nFsServer → p.szFSTag i ≠ []
  len : ∀ i : FsIdx, i.val < p.nFsServer → p.fsTagLen i = fsTagLenOf (p.szFSTag i)

/-- `Read_Config` leaves such records. -/
theorem hasRecords_readConfig (p : Proc) (c : Config) : (readConfig p c).HasRecords := by
  have hget (i : FsIdx) (hi : i.val < c.records.length) :
      c.records[i.val]? = some c.records[i.val] := List.getElem?_eq_getElem hi
  refine ⟨c.length_le, fun i hi => ?_, fun i hi => ?_⟩
  · simp only [readConfig, hget i hi, Option.map_some, Option.getD_some]
    exact (c.records[i.val]).tag_ne_nil
  · simp only [readConfig, hget i hi, Option.map_some, Option.getD_some]

/-- Cutting a tag to its stored length does not change that length. -/
theorem fsTagLenOf_take (tag : CStr) : fsTagLenOf (tag.take (fsTagLenOf tag)) = fsTagLenOf tag := by
  obtain ⟨hle, hlt⟩ := fsTagLenOf_bounds tag
  have hlen : (tag.take (fsTagLenOf tag)).length = fsTagLenOf tag := List.length_take_of_le hle
  rw [fsTagLenOf, hlen, if_neg (by omega)]

/-- The slots that are published are those of the records, and they match the same paths. -/
theorem Proc.HasRecords.slots {p : Proc} (h : p.HasRecords) (rdtscp : ℕ) :
    (∀ i, (publishParameters p ParamBlock.zero rdtscp).2.fsTagLen i ≠ 0 ↔ i.val < p.nFsServer) ∧
      SameTags (publishParameters p ParamBlock.zero rdtscp).2 p :=
  publishParameters_slots rdtscp h.le fun i hi => by
    rw [h.len i hi]
    exact (fsTagLenOf_pos (h.tag_ne_nil i hi)).ne'

/-- A process that attaches has the servers of the creator, and finds the same first tag. -/
theorem Proc.HasRecords.firstTag_attached {p : Proc} (h : p.HasRecords) (q : Proc) (rdtscp : ℕ) :
    (updateParameters q (publishParameters p ParamBlock.zero rdtscp).2).nFsServer =
        p.nFsServer ∧
      ∀ szName, firstTag (updateParameters q (publishParameters p ParamBlock.zero rdtscp).2)
        szName = firstTag p szName := by
  obtain ⟨hused, hcount, hsame⟩ := h.slots rdtscp
  have hprop : Propagated (publishParameters p ParamBlock.zero rdtscp).2
      (updateParameters q (publishParameters p ParamBlock.zero rdtscp).2) :=
    propagated_updateParameters Nat.zero_ne_one
  have hn := hprop.nFsServer.trans hcount.symm
  refine ⟨hn, fun szName => firstTag_congr hn fun i hi => ?_⟩
  have hi' := (hused i).mpr (hn ▸ hi)
  exact (hprop.sameTags.2 i hi' szName).trans (hsame i hi' szName).symm

/-- **Publishing and attaching agree**: a process that takes over what another one has
published has its servers, thresholds, maximum frequencies and CPU frequency, and charges
every path to the same server. -/
theorem attach_agrees {p : Proc} (h : p.HasRecords) (q : Proc) (rdtscp : ℕ) :
    let created := publishParameters p ParamBlock.zero rdtscp
    let attached := updateParameters q created.2
    attached.nFsServer = p.nFsServer ∧
    attached.freq = p.freq ∧
    (∀ (op : Op) (i : FsIdx), i.val < p.nFsServer →
      attached.tThresholdInt64 op i = created.1.tThresholdInt64 op i ∧
      attached.maxFreq op i = created.1.maxFreq op i) ∧
    ∀ (szName : CStr) (cwd : Option FsIdx),
      (checkFSServer { attached with idxFsServerCWD := cwd } szName).idxFsServer =
        (checkFSServer { created.1 with idxFsServerCWD := cwd } szName).idxFsServer := by
  intro created attached
  obtain ⟨hused, -⟩ := h.slots rdtscp
  obtain ⟨hn, hfirst⟩ := h.firstTag_attached q rdtscp
  have hprop : Propagated created.2 attached := propagated_updateParameters Nat.zero_ne_one
  refine ⟨hn, rfl, fun op i hi => ?_, fun szName cwd => checkFSServer_congr (hfirst szName) rfl⟩
  have hi' := (hused i).mpr hi
  rw [hprop.tThresholdInt64 i hi' op, hprop.maxFreq i hi' op]
  exact ⟨if_pos hi, if_pos hi⟩

/-- The process that attaches holds records as well, with shorter tags. -/
theorem hasRecords_attached {p : Proc} (h : p.HasRecords) (q : Proc) (rdtscp : ℕ) :
    (updateParameters q (publishParameters p ParamBlock.zero rdtscp).2).HasRecords := by
  obtain ⟨hused, hcount, -⟩ := h.slots rdtscp
  have hprop : Propagated (publishParameters p ParamBlock.zero rdtscp).2
      (updateParameters q (publishParameters p ParamBlock.zero rdtscp).2) :=
    propagated_updateParameters Nat.zero_ne_one
  have hn := hprop.nFsServer.trans hcount.symm
  have htag (i : FsIdx) (hi : i.val < p.nFsServer) :=
    (hprop.szFSTag i ((hused i).mpr hi)).trans (if_pos hi)
  have hlen (i : FsIdx) (hi : i.val < p.nFsServer) :=
    (hprop.fsTagLen i ((hused i).mpr hi)).trans (if_pos hi)
  refine ⟨hn.le.trans h.le, fun i hi => ?_, fun i hi => ?_⟩
  · rw [hn] at hi
    rw [htag i hi, Ne, List.take_eq_nil_iff, not_or]
    exact ⟨(h.len i hi).trans_ne (fsTagLenOf_pos (h.tag_ne_nil i hi)).ne', h.tag_ne_nil i hi⟩
  · rw [hn] at hi
    rw [htag i hi, hlen i hi, h.len i hi, fsTagLenOf_take]

/-- Two servers; the tag of the first, `/scratch/projectsA`, is longer than its slot. -/
def twoServers : Config where
  freq := 2000000000
  records :=
    [ { tag := bytesOf "/scratch/projectsA"
        tThreshold := fun _ => 5000
        maxFreq := fun _ => 400
        tag_ne_nil := by decide },
      { tag := bytesOf "/work"
        tThreshold := fun _ => 6000
        maxFreq := fun _ => 500
        tag_ne_nil := by decide } ]
  length_le := by decide

/-- Both processes charge `/scratch/projectsB` to the first server. -/
theorem attach_agrees_two :
    (updateParameters Proc.start (publishParameters (readConfig Proc.start twoServers)
      ParamBlock.zero 1).2).nFsServer = 2 ∧
    (checkFSServer (updateParameters Proc.start (publishParameters
        (readConfig Proc.start twoServers) ParamBlock.zero 1).2)
      (bytesOf "/scratch/projectsB")).idxFsServer = some 0 ∧
    (checkFSServer (publishParameters (readConfig Proc.start twoServers) ParamBlock.zero 1).1
      (bytesOf "/scratch/projectsB")).idxFsServer = some 0 := by
  obtain ⟨hn, -, -, hserver⟩ :=
    attach_agrees (hasRecords_readConfig Proc.start twoServers) Proc.start 1
  have hcreated : (checkFSServer (publishParameters (readConfig Proc.start twoServers)
      ParamBlock.zero 1).1 (bytesOf "/scratch/projectsB")).idxFsServer = some 0 := by
    decide +kernel
  exact ⟨hn, (hserver (bytesOf "/scratch/projectsB") (some 0)).trans hcreated, hcreated⟩

end Ooops
