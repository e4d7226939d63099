import Mathlib.Data.List.DropRight
import Ooops.Server

/-!
# The Connections of the Daemon

The daemon keeps the descriptors of its clients in `cfg.fds`: `accept_client` appends the one
it has registered with epoll, `drain_client` erases the one whose client has closed, and after
the main loop all that are left are closed. The kernel gives the numbers of closed descriptors
out again, so what a descriptor stands for is read off the system calls made so far: a client
is connected while, since the last `close` of its descriptor, there is an `accept` that
returned the descriptor and after it an `epoll_ctl` that registered it.

A round of the main loop takes the descriptor that `epoll_wait` reports and the answers of the
calls that follow. The kernel reports only what is registered and never hands out a descriptor
that is open; a round against these rules, and one that leaves the loop, has no successor. What
is in the rows and in the buffers is the matter of other modules: a store outside of them is
taken not to hit `cfg.fds`. The array `cfg.fds` is a list.

* `mainRound_inv`: one round keeps the list and the connected clients together.
* `fds_eq_connected`: so the list is the set of the connected clients, each of them once, and
  the loop at the end closes each once.
* `fds_serverRun`: the list is that of `serverStep`.
-/

open Basis

namespace Ooops

/-- The system calls that say what a descriptor stands for. -/
inductive FdCall
  | accept (fd : ℕ)
  | addEpoll (fd : ℕ) (ok : Bool)
  | delEpoll (fd : ℕ)
  | close (fd : ℕ)
  deriving DecidableEq

/-- The calls after the last `close` of a descriptor. -/
def sinceClose (fd : ℕ) (calls : List FdCall) : List FdCall := calls.rtakeWhile (· ≠ .close fd)

/-- A descriptor that `accept` has returned and that has not been closed since. -/
def Accepted (calls : List FdCall) (fd : ℕ) : Prop := .accept fd ∈ sinceClose fd calls

/-- The descriptor of a connected client: accepted, then registered, and not closed since. -/
def Connected (calls : List FdCall) (fd : ℕ) : Prop :=
  [.accept fd, .addEpoll fd true].Sublist (sinceClose fd calls)

instance (calls : List FdCall) (fd : ℕ) : Decidable (Accepted calls fd) :=
  inferInstanceAs (Decidable (_ ∈ _))

instance (calls : List FdCall) (fd : ℕ) : Decidable (Connected calls fd) :=
  inferInstanceAs (Decidable (List.Sublist _ _))

/-- The descriptors that are open before the main loop: the listening socket `cfg.fd`, and those
of the signals and of epoll. -/
structure MainFds where
  fd : ℕ
  signalFd : ℕ
  epollFd : ℕ

/-- `cfg.fds`, and the calls made so far. -/
structure Connections where
  fds : List ℕ
  calls : List FdCall
  deriving DecidableEq

/-- Nobody is connected in front of the main loop. -/
def Connections.start : Connections := { fds := [], calls := [] }

/-- The return value of a `read`. -/
def ReadResult.rc {n : ℕ} : ReadResult n → ℤ
  | .error => -1
  | .bytes buf _ => buf.length

/-- `accept_client`, where `accept` returns a descriptor or `-1`. -/
def Connections.acceptClient (s : Connections) (fd : Option ℕ) (added : Bool) : Connections :=
  match fd with
  | none => s
  | some fd =>
      if added then
        { fds := s.fds ++ [fd], calls := s.calls ++ [.accept fd, .addEpoll fd true] }
      else { s with calls := s.calls ++ [.accept fd, .addEpoll fd false, .close fd] }

/-- `drain_client`, where `read` returns `rc`. -/
def Connections.drainClient (s : Connections) (fd : ℕ) (rc : ℤ) : Connections :=
  if rc ≠ 0 then s
  else { fds := s.fds.erase fd, calls := s.calls ++ [.delEpoll fd, .close fd] }

/-- The loop behind the main loop. -/
def closeClients (s : Connections) : List FdCall :=
  s.fds.flatMap fun fd => [.delEpoll fd, .close fd]

/-- What is closed after that loop. -/
def closeMain (main : MainFds) : List FdCall :=
  [.close main.fd, .close main.epollFd, .close main.signalFd]

/-- What is read from the descriptor of the signals. -/
inductive SignalRead
  | unread
  | sigalrm
  | other
  deriving DecidableEq

/-- One round of the main loop: `ev.data.fd`, and the answers of the calls that follow. -/
structure Round where
  evFd : ℕ
  signal : SignalRead
  accepted : Option ℕ
  greeting : ReadResult 128
  added : Bool
  data : ReadResult 1024

variable {main : MainFds} {s s' : Connections} {fd : ℕ}

/-- The kernel reports a registered descriptor, and `accept` returns one that is not open. -/
def KernelAllows (main : MainFds) (s : Connections) (p : Round) : Prop :=
  (p.evFd = main.signalFd ∨ p.evFd = main.fd ∨ Connected s.calls p.evFd) ∧
    ∀ fd ∈ p.accepted,
      ¬Accepted s.calls fd ∧ fd ≠ main.fd ∧ fd ≠ main.signalFd ∧ fd ≠ main.epollFd

instance (main : MainFds) (s : Connections) (p : Round) : Decidable (KernelAllows main s p) :=
  inferInstanceAs (Decidable (_ ∧ _))

/-- One round of the main loop. -/
def mainRound (main : MainFds) (s : Connections) (p : Round) : Option Connections :=
  if KernelAllows main s p then
    if p.evFd = main.signalFd then if p.signal = .other then none else some s
    else if p.evFd = main.fd then some (s.acceptClient p.accepted p.added)
    else some (s.drainClient p.evFd p.data.rc)
  else none

/-! ### The calls since the last `close` -/

theorem sinceClose_concat (fd : ℕ) (calls : List FdCall) (c : FdCall) :
    sinceClose fd (calls ++ [c]) =
      if c = .close fd then [] else sinceClose fd calls ++ [c] := by
  rw [sinceClose, List.rtakeWhile_concat]
  by_cases hc : c = .close fd <;> simp [hc, sinceClose]

theorem Connected.accepted {calls : List FdCall} (h : Connected calls fd) : Accepted calls fd :=
  h.subset List.mem_cons_self

/-- Whether a descriptor is accepted, after one more call. -/
theorem accepted_concat_iff {calls : List FdCall} {c : FdCall} :
    Accepted (calls ++ [c]) fd ↔ c ≠ .close fd ∧ (Accepted calls fd ∨ c = .accept fd) := by
  rw [Accepted, sinceClose_concat]
  split_ifs with hc
  · simp [hc]
  · simp [hc, Accepted, eq_comm]

/-- A pair of calls in a list that is longer by one. -/
theorem pair_sublist_concat_iff {α : Type*} {a b c : α} {l : List α} :
    [a, b].Sublist (l ++ [c]) ↔ [a, b].Sublist l ∨ c = b ∧ a ∈ l := by
  rw [← List.reverse_sublist, List.reverse_append]
  simp only [List.reverse_cons, List.reverse_nil, List.nil_append, List.singleton_append,
    List.cons_sublist_cons', List.singleton_sublist, List.mem_reverse, eq_comm]
  rw [← @List.reverse_sublist _ [a, b]]
  rfl

/-- Whether a client is connected, after one more call. -/
theorem connected_concat_iff {calls : List FdCall} {c : FdCall} :
    Connected (calls ++ [c]) fd ↔ c ≠ .close fd ∧
      (Connected calls fd ∨ c = .addEpoll fd true ∧ Accepted calls fd) := by
  rw [Connected, sinceClose_concat]
  split_ifs with hc
  · simp [hc]
  · rw [pair_sublist_concat_iff]
    simp only [ne_eq, hc, not_false_eq_true, true_and]
    rfl

section Calls

variable {calls : List FdCall} {a : ℕ}

/-- A client that is accepted and registered. -/
theorem registered_iff :
    (Accepted (calls ++ [.accept a, .addEpoll a true]) fd ↔ Accepted calls fd ∨ a = fd) ∧
      (Connected (calls ++ [.accept a, .addEpoll a true]) fd ↔
        Connected calls fd ∨ a = fd) := by
  rw [List.append_cons]
  constructor
  · rw [accepted_concat_iff, accepted_concat_iff]
    simp
  · simp only [connected_concat_iff, accepted_concat_iff]
    by_cases h : a = fd <;> simp [h]

/-- A client that could not be registered. -/
theorem refused_iff :
    (Accepted (calls ++ [.accept a, .addEpoll a false, .close a]) fd ↔
        a ≠ fd ∧ Accepted calls fd) ∧
      (Connected (calls ++ [.accept a, .addEpoll a false, .close a]) fd ↔
        a ≠ fd ∧ Connected calls fd) := by
  rw [List.append_cons, List.append_cons]
  constructor
  · simp only [accepted_concat_iff]
    by_cases h : a = fd <;> simp [h]
  · simp only [connected_concat_iff]
    by_cases h : a = fd <;> simp [h]

/-- A client that has closed. -/
theorem closed_iff :
    (Accepted (calls ++ [.delEpoll a, .close a]) fd ↔ a ≠ fd ∧ Accepted calls fd) ∧
      (Connected (calls ++ [.delEpoll a, .close a]) fd ↔ a ≠ fd ∧ Connected calls fd) := by
  rw [List.append_cons]
  constructor
  · simp only [accepted_concat_iff]
    by_cases h : a = fd <;> simp [h]
  · simp only [connected_concat_iff]
    by_cases h : a = fd <;> simp [h]

end Calls

/-! ### The list and the calls -/

/-- The list has every connected client once, and what is accepted is connected. -/
structure ConnInv (main : MainFds) (s : Connections) : Prop where
  nodup : s.fds.Nodup
  mem_iff : ∀ fd, fd ∈ s.fds ↔ Connected s.calls fd
  connected : ∀ fd, Accepted s.calls fd → Connected s.calls fd
  client : ∀ fd ∈ s.fds, fd ≠ main.fd ∧ fd ≠ main.signalFd ∧ fd ≠ main.epollFd

theorem connInv_start (main : MainFds) : ConnInv main .start :=
  ⟨.nil, fun fd => by simp [Connections.start, Connected, sinceClose],
    fun fd h => by simp [Connections.start, Accepted, sinceClose] at h, nofun⟩

/-- A new client keeps the invariant. -/
theorem acceptClient_inv {accepted : Option ℕ} (hi : ConnInv main s)
    (hk : ∀ fd ∈ accepted,
      ¬Accepted s.calls fd ∧ fd ≠ main.fd ∧ fd ≠ main.signalFd ∧ fd ≠ main.epollFd)
    (added : Bool) : ConnInv main (s.acceptClient accepted added) := by
  cases accepted with
  | none => exact hi
  | some a =>
      obtain ⟨hopen, hmain⟩ := hk a rfl
      have hnot : ∀ fd, Connected s.calls fd → a ≠ fd :=
        fun fd h e => hopen (e ▸ h.accepted)
      cases added with
      | true =>
          have hnew : a ∉ s.fds := fun h => hnot a ((hi.mem_iff a).mp h) rfl
          have hnodup : (s.fds ++ [a]).Nodup := List.concat_eq_append ▸ hi.nodup.concat hnew
          refine ⟨hnodup, fun fd => ?_, fun fd h => ?_, fun fd h => ?_⟩
          · rw [Connections.acceptClient, if_pos rfl, registered_iff.2, ← hi.mem_iff]
            simp [eq_comm]
          · rw [Connections.acceptClient, if_pos rfl, registered_iff.1] at h
            rw [Connections.acceptClient, if_pos rfl, registered_iff.2]
            exact h.imp_left (hi.connected fd)
          · rcases List.mem_append.mp h with h | h
            · exact hi.client fd h
            · exact List.mem_singleton.mp h ▸ hmain
      | false =>
          refine ⟨hi.nodup, fun fd => ?_, fun fd h => ?_, hi.client⟩
          · refine (hi.mem_iff fd).trans ?_
            rw [Connections.acceptClient, if_neg Bool.false_ne_true, refused_iff.2]
            exact ⟨fun h => ⟨hnot fd h, h⟩, And.right⟩
          · rw [Connections.acceptClient, if_neg Bool.false_ne_true, refused_iff.1] at h
            rw [Connections.acceptClient, if_neg Bool.false_ne_true, refused_iff.2]
            exact ⟨h.1, hi.connected fd h.2⟩

/-- A read keeps the invariant, and so does a client that has closed. -/
theorem drainClient_inv (hi : ConnInv main s) (a : ℕ) (rc : ℤ) :
    ConnInv main (s.drainClient a rc) := by
  rw [Connections.drainClient]
  split_ifs with hrc
  · exact hi
  · refine ⟨hi.nodup.erase a, fun fd => ?_, fun fd h => ?_, fun fd h => ?_⟩
    · rw [closed_iff.2, hi.nodup.mem_erase_iff, hi.mem_iff, ne_comm]
    · rw [closed_iff.1] at h
      rw [closed_iff.2]
      exact ⟨h.1, hi.connected fd h.2⟩
    · exact hi.client fd (List.mem_of_mem_erase h)

/-- One round keeps the invariant. -/
theorem mainRound_inv {p : Round} (hi : ConnInv main s) (h : mainRound main s p = some s') :
    ConnInv main s' := by
  rw [mainRound] at h
  split_ifs at h with hk hsignal hother hfd
  · exact Option.some.inj h ▸ hi
  · exact Option.some.inj h ▸ acceptClient_inv hi hk.2 p.added
  · exact Option.some.inj h ▸ drainClient_inv hi p.evFd p.data.rc

theorem connInv_of_run {ps : List Round}
    (hrun : runSteps (mainRound main) .start ps = some s) : ConnInv main s :=
  invariant_of_runSteps (P := fun _ _ => True) (connInv_start main)
    (fun _ _ _ hi _ h => mainRound_inv hi h) (along_of_forall (fun _ _ => trivial) _ _) hrun

/-- How often the last loop closes a descriptor. -/
theorem count_closeClients (s : Connections) (fd : ℕ) :
    (closeClients s).count (.close fd) = s.fds.count fd := by
  rw [closeClients]
  induction s.fds with
  | nil => rfl
  | cons a fds ih =>
      rw [List.flatMap_cons, List.count_append, ih, List.count_cons, Nat.add_comm]
      by_cases h : a = fd <;> simp [h]

/-- **The list of the connections.** After every sequence of rounds of the main loop the list has
exactly the descriptors of the clients that were accepted and registered and have not been
closed since, each of them once. The loop behind the main loop closes each of them once and
nothing else, and they are not closed again after it. -/
theorem fds_eq_connected (main : MainFds) (ps : List Round) (s : Connections)
    (hrun : runSteps (mainRound main) .start ps = some s) :
    s.fds.Nodup ∧ (∀ fd, fd ∈ s.fds ↔ Connected s.calls fd) ∧
      (∀ fd, (closeClients s).count (.close fd) = if Connected s.calls fd then 1 else 0) ∧
      ∀ fd, Connected s.calls fd → .close fd ∉ closeMain main := by
  have hi := connInv_of_run hrun
  refine ⟨hi.nodup, hi.mem_iff, fun fd => ?_, fun fd h hmem => ?_⟩
  · rw [count_closeClients, hi.nodup.count]
    simp only [hi.mem_iff]
  · have hclient := hi.client fd ((hi.mem_iff fd).mpr h)
    simp only [closeMain, List.mem_cons, FdCall.close.injEq, List.not_mem_nil, or_false] at hmem
    omega

/-- A client on descriptor 6, a second one on it after the first has closed, and one that cannot be
registered. -/
def reusedRounds : List Round :=
  [⟨3, .unread, some 6, .error, true, .error⟩,
    ⟨6, .unread, none, .error, true, .bytes [] (by simp)⟩,
    ⟨3, .unread, some 6, .error, true, .error⟩,
    ⟨3, .unread, some 7, .error, false, .error⟩]

theorem fds_eq_connected_reused :
    ∃ s, runSteps (mainRound ⟨3, 4, 5⟩) .start reusedRounds = some s ∧
      s.fds = [6] ∧ s.fds.Nodup := by
  have hrun : runSteps (mainRound ⟨3, 4, 5⟩) .start reusedRounds =
      some ⟨[6], [.accept 6, .addEpoll 6 true, .delEpoll 6, .close 6, .accept 6,
        .addEpoll 6 true, .accept 7, .addEpoll 7 false, .close 7]⟩ := by decide
  exact ⟨_, hrun, rfl, (fds_eq_connected _ _ _ hrun).1⟩

/-! ### The list of the daemon -/

/-- The event of `serverStep` for a round, if it has one. -/
def Round.event (main : MainFds) (p : Round) : Option Event :=
  if p.evFd = main.signalFd then if p.signal = .sigalrm then some .alarm else none
  else if p.evFd = main.fd then p.accepted.map fun fd => .accept fd p.greeting p.added
  else some (.readable p.evFd p.data)

section Daemon

variable {cfg : Setup} {t t' : Server cfg.gsize}

theorem periodic_fds : (periodic cfg t).fds = t.fds := by
  by_cases hg : cfg.gsize = 1
  · rw [periodic_of_eq hg, printSummary_eq]
    rfl
  · rw [periodic_of_ne hg]

/-- A packet leaves the list as it is. -/
theorem takeData_fds {p : OoopsData} (h : takeData cfg t p = some t') : t'.fds = t.fds := by
  obtain ⟨-, k, -, rfl⟩ := takeData_eq_some_iff.mp h
  rw [afterData]
  split_ifs
  · rw [printSummary_eq]
    rfl
  · rfl

/-- What `drain_client` does to the list. -/
theorem drainClient_fds {fd : ℕ} {r : ReadResult 1024} (h : drainClient cfg t fd r = some t') :
    t'.fds = if r.rc ≠ 0 then t.fds else t.fds.erase fd := by
  cases r with
  | error =>
      obtain rfl := Option.some.inj h
      rfl
  | bytes buf hbuf =>
      simp only [drainClient] at h
      cases hp : receivedData buf with
      | none =>
          rw [hp] at h
          obtain rfl := Option.some.inj h
          by_cases hnil : buf.length = 0 <;> simp [ReadResult.rc, hnil]
      | some p =>
          have hlen : buf.length = sizeofOoopsData := by
            rw [receivedData] at hp
            split_ifs at hp with hcond
            exact hcond.1
          have hrc : (ReadResult.bytes buf hbuf).rc ≠ 0 := by
            rw [ReadResult.rc, hlen]
            decide
          rw [hp] at h
          rw [if_pos hrc]
          dsimp only at h
          split_ifs at h with hrank
          · exact Option.some.inj h ▸ rfl
          · exact takeData_fds h

/-- What `accept_client` does to the list. -/
theorem acceptClient_fds {fd : ℕ} {r : ReadResult 128} {added : Bool} {rank : ℤ}
    (h : Ooops.acceptClient cfg t fd r added = some (t', rank)) :
    t'.fds = if added then t.fds ++ [fd] else t.fds := by
  cases r with
  | error => exact absurd h nofun
  | bytes buf hbuf =>
      rw [Ooops.acceptClient] at h
      by_cases hlen : buf.length < 128
      · rw [if_pos hlen] at h
        obtain ⟨rfl, -⟩ := Prod.mk.inj (Option.some.inj h)
        rfl
      · exact absurd h (by simp [hlen])

/-- A round without an event leaves the list as it is. -/
theorem mainRound_fds_of_none {p : Round} (h : mainRound main s p = some s')
    (he : p.event main = none) : s'.fds = s.fds := by
  rw [mainRound] at h
  rw [Round.event] at he
  split_ifs at h with hk hsignal hother hfd
  · exact Option.some.inj h ▸ rfl
  · rw [if_neg hsignal, if_pos hfd, Option.map_eq_none_iff] at he
    rw [← Option.some.inj h, he]
    rfl
  · rw [if_neg hsignal, if_neg hfd] at he
    exact absurd he nofun

/-- A round does to the list what its event does. -/
theorem mainRound_fds {p : Round} {e : Event} (h : mainRound main s p = some s')
    (hfds : s.fds = t.fds) (he : p.event main = some e) (ht : serverStep cfg t e = some t') :
    s'.fds = t'.fds := by
  rw [mainRound] at h
  rw [Round.event] at he
  split_ifs at h with hk hsignal hother hfd
  · obtain rfl := Option.some.inj h
    rw [if_pos hsignal] at he
    split_ifs at he
    obtain rfl := Option.some.inj he
    rw [← Option.some.inj ht, periodic_fds, hfds]
  · rw [if_neg hsignal, if_pos hfd] at he
    obtain ⟨fd, haccepted, rfl⟩ := Option.map_eq_some_iff.mp he
    obtain ⟨⟨t₁, rank⟩, hacc, rfl⟩ := Option.map_eq_some_iff.mp ht
    rw [← Option.some.inj h, haccepted, acceptClient_fds hacc, ← hfds,
      Connections.acceptClient]
    cases p.added <;> rfl
  · rw [if_neg hsignal, if_neg hfd] at he
    obtain rfl := Option.some.inj he
    rw [← Option.some.inj h, drainClient_fds ht, ← hfds, Connections.drainClient]
    split_ifs <;> rfl

/-- **The list of the daemon** is the one that the rounds lead to. -/
theorem fds_serverRun {ps : List Round} (hrun : runSteps (mainRound main) s ps = some s')
    (hfds : s.fds = t.fds)
    (ht : runSteps (serverStep cfg) t (ps.filterMap (Round.event main)) = some t') :
    s'.fds = t'.fds := by
  induction ps generalizing s t with
  | nil =>
      obtain rfl := Option.some.inj hrun
      obtain rfl := Option.some.inj ht
      exact hfds
  | cons p ps ih =>
      obtain ⟨m, hm, hrun⟩ := Option.bind_eq_some_iff.mp hrun
      cases he : p.event main with
      | none =>
          rw [List.filterMap_cons_none he] at ht
          exact ih hrun ((mainRound_fds_of_none hm he).trans hfds) ht
      | some e =>
          rw [List.filterMap_cons_some he] at ht
          obtain ⟨n, hn, ht⟩ := Option.bind_eq_some_iff.mp ht
          exact ih hrun (mainRound_fds hm hfds he hn) ht

end Daemon

end Ooops
