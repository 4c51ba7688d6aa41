import Mathlib.Data.List.Basic

/-!
# Servers that answer calls

A server takes a call in a state and gives the next state and a reply.  `runCalls` answers a list of
calls.  `runCalls_simulates` is the simulation rule: two servers whose single answers agree on
related states agree on every list of calls.
-/

namespace BasisRust.Library

variable {σ τ γ ρ : Type}

/-- The state after a list of calls, and the replies. -/
def runCalls (f : σ → γ → σ × ρ) : σ → List γ → σ × List ρ
  | s, [] => (s, [])
  | s, c :: cs =>
    let (s', replies) := runCalls f (f s c).1 cs
    (s', (f s c).2 :: replies)

/-- A condition on the calls of a run and the states they are made in. -/
def Along (f : σ → γ → σ × ρ) (ok : σ → γ → Prop) : σ → List γ → Prop
  | _, [] => True
  | s, c :: cs => ok s c ∧ Along f ok (f s c).1 cs

instance Along.decidable (f : σ → γ → σ × ρ) (ok : σ → γ → Prop) [∀ s c, Decidable (ok s c)] :
    ∀ s cs, Decidable (Along f ok s cs)
  | _, [] => isTrue trivial
  | s, c :: cs =>
    have := Along.decidable f ok (f s c).1 cs
    inferInstanceAs (Decidable (ok s c ∧ Along f ok (f s c).1 cs))

/-- **The simulation rule.** -/
theorem runCalls_simulates {f : σ → γ → σ × ρ} {g : τ → γ → τ × ρ} {R : σ → τ → Prop}
    {ok : τ → γ → Prop} {cs : List γ}
    (hstep : ∀ s t, ∀ c ∈ cs, R s t → ok t c → R (f s c).1 (g t c).1 ∧ (f s c).2 = (g t c).2)
    {s : σ} {t : τ} (hR : R s t) (hok : Along g ok t cs) :
    R (runCalls f s cs).1 (runCalls g t cs).1 ∧ (runCalls f s cs).2 = (runCalls g t cs).2 := by
  induction cs generalizing s t with
  | nil => exact ⟨hR, rfl⟩
  | cons c cs ih =>
    obtain ⟨hnext, hreply⟩ := hstep s t c (.head _) hR hok.1
    obtain ⟨hend, hreplies⟩ := ih (fun s t d hd => hstep s t d (.tail _ hd)) hnext hok.2
    refine ⟨hend, ?_⟩
    show (f s c).2 :: _ = (g t c).2 :: _
    rw [hreply, hreplies]

/-- What every answer keeps holds after every list of calls. -/
theorem runCalls_invariant {f : σ → γ → σ × ρ} (Inv : σ → Prop)
    (hstep : ∀ s c, Inv s → Inv (f s c).1)
    {s : σ} (h : Inv s) (cs : List γ) : Inv (runCalls f s cs).1 := by
  induction cs generalizing s with
  | nil => exact h
  | cons c cs ih => exact ih (hstep s c h)

end BasisRust.Library
