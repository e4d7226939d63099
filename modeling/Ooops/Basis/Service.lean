import Ooops.Basis.Run

/-!
# Clients of a Service

A service answers calls: `serve s c w` is the answer to the call `c` in the state `s` and the
surroundings `w`, with the state after it, or nothing where the service breaks down. What a
client asks next depends on the answers it has got.

A wrapper has a state of its own, which contains that of the service. When it answers every
single call like the service, no client can tell the two apart, however long it asks
(`wrapper_unnoticed`).
-/

namespace Basis

variable {σ τ α β ω : Type*}

/-- The next call of a client: the state and the answers after it. -/
def ask (serve : σ → α → ω → Option (β × σ)) (client : List β → α) (s : σ × List β) (w : ω) :
    Option (σ × List β) :=
  (serve s.1 (client s.2) w).map fun r => (r.2, s.2 ++ [r.1])

/-- The client makes all its calls in states in which `P` holds of them. -/
def Asks (serve : σ → α → ω → Option (β × σ)) (P : σ → α → ω → Prop) (client : List β → α)
    (s : σ) (ws : List ω) : Prop :=
  Along (ask serve client) (fun s w => P s.1 (client s.2) w) (s, []) ws

variable {serve : σ → α → ω → Option (β × σ)} {wrap : τ → α → ω → Option (β × τ)}
  {π : τ → σ} {I : τ → Prop} {P : τ → α → ω → Prop}

/-- One call, answered alike, leads to one call that is. -/
theorem ask_wrapper (client : List β → α) {t : τ} {bs : List β} {w : ω} {r : β × τ}
    (hwrap : wrap t (client bs) w = some r)
    (hserve : serve (π t) (client bs) w = some (r.1, π r.2)) :
    ask wrap client (t, bs) w = some (r.2, bs ++ [r.1]) ∧
      ask serve client (π t, bs) w = some (π r.2, bs ++ [r.1]) := by
  constructor
  · rw [ask, hwrap, Option.map_some]
  · rw [ask, hserve, Option.map_some]

/-- **No client notices.** A wrapper that answers every allowed call as the service would, and
keeps to its invariant, gives every client the answers of the service. -/
theorem wrapper_unnoticed
    (hone : ∀ t c w, I t → P t c w →
      ∃ r, wrap t c w = some r ∧ serve (π t) c w = some (r.1, π r.2) ∧ I r.2)
    (client : List β → α) {t : τ} {ws : List ω} (hI : I t) (hP : Asks wrap P client t ws) :
    ∃ t' bs, runSteps (ask wrap client) (t, []) ws = some (t', bs) ∧
      runSteps (ask serve client) (π t, []) ws = some (π t', bs) ∧ I t' := by
  rw [Asks] at hP
  generalize ([] : List β) = bs₀ at hP ⊢
  induction ws generalizing t bs₀ with
  | nil => exact ⟨t, bs₀, rfl, rfl, hI⟩
  | cons w ws ih =>
      obtain ⟨hw, hrest⟩ := hP
      obtain ⟨r, hwrap, hserve, hI'⟩ := hone t (client bs₀) w hI hw
      obtain ⟨hask, hask'⟩ := ask_wrapper client hwrap hserve
      obtain ⟨t', bs, hrun, hrun', ht'⟩ := ih hI' (bs₀ ++ [r.1]) (hrest _ hask)
      refine ⟨t', bs, ?_, ?_, ht'⟩
      · rw [runSteps_cons, hask, Option.bind_some, hrun]
      · rw [runSteps_cons, hask', Option.bind_some, hrun']

end Basis
