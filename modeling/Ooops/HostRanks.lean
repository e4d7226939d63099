import Mathlib.Data.List.TakeWhile
import Ooops.Server

/-!
# Ranks of Hosts

A client greets with the name of its host, and the daemon answers with the number of the line
that this name has in the host file. The table is looked up with whatever word the greeting
holds, so that this is about any word, listed or not, of a length that fits the buffer of
`accept_client`.

* `Setup.Reads`: the daemon has read a host file.
* `acceptClient_of_name`: the word of a greeting is looked up as it is.
* `hostFile_ranks`: what every greeting is answered with.
-/

open Basis

namespace Ooops

/-- The group size and the table are what `Read_Host_List` made of a file. -/
def Setup.Reads (cfg : Setup) (hash : CStr → ℕ) (file : List UInt8) : Prop :=
  ∃ mem d, readHostList hash mem file = .ok (cfg.gsize, d) ∧
    ∀ name, Ooops.dictSearch hash d name = .ok (cfg.dictSearch name)

/-- A read of at most `n` bytes while the bytes `waiting` are there. -/
def readWaiting (n : ℕ) (waiting : List UInt8) : ReadResult n :=
  .bytes (waiting.take n) (List.length_take_le ..)

/-- What a client may greet with: at most 100 characters, none of them blank or NUL. -/
structure IsGreetingName (name : CStr) : Prop where
  length_le : name.length ≤ 100
  visible : ∀ c ∈ name, isSpace c = false ∧ c ≠ 0

theorem IsHostName.isGreetingName {name : CStr} (h : IsHostName name) : IsGreetingName name :=
  ⟨h.length_lt.le.trans (by decide), h.visible⟩

/-- The daemon of a host file, with the answers its table is to give. -/
def HostFile.setup (hosts : HostFile) (nFsServer : ℕ) (h : nFsServer ≤ 8) (tIntervalReport : ℤ) :
    Setup where
  gsize := hosts.names.length
  gsize_le := by
    rw [← count_newline hosts.hostName]
    exact List.count_le_length.trans hosts.length_file_le
  dictSearch := hosts.rank
  nFsServer := nFsServer
  nFsServer_le := h
  tIntervalReport := tIntervalReport

section Ranks

variable {cfg : Setup} {hash : CStr → ℕ} {hosts : HostFile} {name : CStr}

/-! ## The table -/

/-- The table of a file answers with the line of a host, and with `-1` for any other name. -/
theorem exists_readHostList (hash : CStr → ℕ) (mem : Dict) (hosts : HostFile) :
    ∃ d, readHostList hash mem hosts.file = .ok (hosts.names.length, d) ∧
      ∀ name, Ooops.dictSearch hash d name = .ok (hosts.rank name) := by
  obtain ⟨d, hread, hd⟩ := readHostList_hostFile hash mem hosts
  refine ⟨d, hread, fun name => ?_⟩
  rw [dictSearch_eq hd, HostFile.rank]
  split_ifs <;> rfl

theorem Setup.Reads.gsize_eq (h : cfg.Reads hash hosts.file) :
    cfg.gsize = hosts.names.length := by
  obtain ⟨mem, d, hread, -⟩ := h
  obtain ⟨d', hread', -⟩ := exists_readHostList hash mem hosts
  rw [hread'] at hread
  exact (Prod.mk.inj (Except.ok.inj hread)).1.symm

theorem Setup.Reads.dictSearch_eq (h : cfg.Reads hash hosts.file) (name : CStr) :
    cfg.dictSearch name = hosts.rank name := by
  obtain ⟨mem, d, hread, hsearch⟩ := h
  obtain ⟨d', hread', hsearch'⟩ := exists_readHostList hash mem hosts
  rw [hread'] at hread
  obtain ⟨-, rfl⟩ := Prod.mk.inj (Except.ok.inj hread)
  exact Except.ok.inj ((hsearch name).symm.trans (hsearch' name))

/-- The table that is read from the file gives these answers. -/
theorem HostFile.setup_reads (hosts : HostFile) (hash : CStr → ℕ) {nFsServer : ℕ}
    (h : nFsServer ≤ 8) (tIntervalReport : ℤ) :
    (hosts.setup nFsServer h tIntervalReport).Reads hash hosts.file :=
  ⟨⟨0, 0, 0, fun _ => 0, fun _ => ⟨0, 0, []⟩⟩, exists_readHostList hash _ hosts⟩

/-- No two hosts share a line. -/
theorem HostFile.rank_inj {name' : CStr} (hname : name ∈ hosts.names) (hname' : name' ∈ hosts.names)
    (h : hosts.rank name = hosts.rank name') : name = name' := by
  rw [rank, rank, if_pos hname, if_pos hname', Int.natCast_inj] at h
  exact (List.idxOf_inj hname).mp h

/-! ## The greeting -/

/-- A word is read as it is. -/
theorem scanWord_of_visible (h : ∀ c ∈ name, isSpace c = false) : scanWord name = name := by
  have hhead : name.dropWhile isSpace = name := by
    cases name with
    | nil => rfl
    | cons c name => exact List.dropWhile_cons_of_neg (by simp [h c List.mem_cons_self])
  rw [scanWord, hhead, List.takeWhile_eq_self_iff]
  exact fun c hc => by simp [h c hc]

theorem length_szTagNodeName : szTagNodeName.length = 6 := by decide

/-- A greeting fits the buffer. -/
theorem take_greeting (h : IsGreetingName name) :
    (szTagNodeName ++ name).take 128 = szTagNodeName ++ name := by
  have hlen := h.length_le
  refine List.take_of_length_le ?_
  rw [List.length_append, length_szTagNodeName]
  omega

/-- A greeting holds no NUL. -/
theorem takeWhile_greeting (h : IsGreetingName name) :
    (szTagNodeName ++ name).takeWhile (fun c => decide (c ≠ 0)) = szTagNodeName ++ name := by
  have hnul : ∀ c ∈ szTagNodeName, c ≠ 0 := by simp [szTagNodeName, bytesOf]
  rw [List.takeWhile_eq_self_iff]
  intro c hc
  rcases List.mem_append.mp hc with hc | hc
  · simpa using hnul c hc
  · simpa using (h.visible c hc).2

/-- The word of a greeting is looked up. -/
theorem greetedRank_of_name (h : IsGreetingName name) :
    greetedRank cfg (szTagNodeName ++ name) = cfg.dictSearch name := by
  have hcmp : strncmpEq szTagNodeName (szTagNodeName ++ name) 6 = true := by
    rw [strncmpEq_iff, ← length_szTagNodeName, List.take_left, List.take_length]
  rw [greetedRank, if_pos hcmp, ← length_szTagNodeName, List.drop_left,
    scanWord_of_visible fun c hc => (h.visible c hc).1]

/-- **The handshake**: a client is answered with what the table says about its word. -/
theorem acceptClient_of_name (h : IsGreetingName name) (s : Server cfg.gsize) (fd : ℕ)
    (registered : Bool) :
    acceptClient cfg s fd (readWaiting 128 (szTagNodeName ++ name)) registered =
      some ({ s with fds := if registered then s.fds ++ [fd] else s.fds },
        cfg.dictSearch name) := by
  have hlen : (szTagNodeName ++ name).length < 128 := by
    have hle := h.length_le
    rw [List.length_append, length_szTagNodeName]
    omega
  simp only [readWaiting, acceptClient, take_greeting h, if_pos hlen, takeWhile_greeting h,
    greetedRank_of_name h]

/-- **The ranks.** For every host file and every hash function the table takes all names; the group
size is then the number of lines, a client that greets with a name of the file is answered with the
number of its line and any other one with `-1`, so that no two hosts share a rank. -/
theorem hostFile_ranks (hash : CStr → ℕ) (hosts : HostFile) :
    (∀ mem, ∃ d, readHostList hash mem hosts.file = .ok (hosts.names.length, d)) ∧
      ∀ cfg : Setup, cfg.Reads hash hosts.file →
        cfg.gsize = hosts.names.length ∧
        (∀ name, IsGreetingName name → ∀ s fd registered,
          (acceptClient cfg s fd (readWaiting 128 (szTagNodeName ++ name)) registered).map
            Prod.snd = some (if name ∈ hosts.names then (hosts.names.idxOf name : ℤ) else -1)) ∧
        ∀ name ∈ hosts.names, ∀ name' ∈ hosts.names,
          greetedRank cfg (szTagNodeName ++ name) = greetedRank cfg (szTagNodeName ++ name') →
            name = name' := by
  refine ⟨fun mem => ?_, fun cfg hcfg => ⟨hcfg.gsize_eq, fun name hname s fd registered => ?_,
    fun name hname name' hname' h => ?_⟩⟩
  · obtain ⟨d, hread, -⟩ := exists_readHostList hash mem hosts
    exact ⟨d, hread⟩
  · rw [acceptClient_of_name hname, Option.map_some, hcfg.dictSearch_eq]
    rfl
  · rw [greetedRank_of_name (hosts.hostName name hname).isGreetingName,
      greetedRank_of_name (hosts.hostName name' hname').isGreetingName, hcfg.dictSearch_eq,
      hcfg.dictSearch_eq] at h
    exact HostFile.rank_inj hname hname' h

end Ranks

section Sample

/-- The file of two hosts. -/
def twoHosts : HostFile where
  names := [bytesOf "n0", bytesOf "n1"]
  hostName := by decide +kernel
  nodup := by decide
  ne_nil := by decide
  length_file_le := by decide

theorem one_le_maxFsServer : 1 ≤ 8 := by decide

/-- The daemon of two hosts whose names have the same hash. -/
def twoHostSetup : Setup := twoHosts.setup 1 one_le_maxFsServer 5

theorem hostFile_ranks_collision :
    twoHostSetup.gsize = 2 ∧
      (∀ name, IsGreetingName name → ∀ s fd registered,
        (acceptClient twoHostSetup s fd (readWaiting 128 (szTagNodeName ++ name))
          registered).map Prod.snd =
            some (if name ∈ twoHosts.names then (twoHosts.names.idxOf name : ℤ) else -1)) ∧
      ∀ name ∈ twoHosts.names, ∀ name' ∈ twoHosts.names,
        greetedRank twoHostSetup (szTagNodeName ++ name) =
          greetedRank twoHostSetup (szTagNodeName ++ name') → name = name' :=
  (hostFile_ranks (fun _ => 0) twoHosts).2 twoHostSetup (twoHosts.setup_reads _ _ _)

end Sample

end Ooops
