import Mathlib.Data.Nat.Notation

/-!
# Local readers

A reader operation is *local* when what it does only depends on the units it takes: on any reader
whose next units are the same it gives the same result and takes the same units, whatever lies
behind them.
-/

namespace BasisRust.Library

/-- A kind of reader.  `Same n s t`: the next `n` units of both are there and are the same. -/
structure Source (σ : Type) where
  skip : σ → ℕ → σ
  Same : ℕ → σ → σ → Prop
  skip_zero : ∀ s, skip s 0 = s
  skip_skip : ∀ s m n, skip (skip s m) n = skip s (m + n)
  same_left : ∀ {n s t}, Same n s t → Same n s s
  same_append : ∀ {m n s t}, Same (m + n) s t ↔ Same m s t ∧ Same n (skip s m) (skip t m)

variable {σ ε α β : Type}

/-- The operation takes the next `n` units of `s` and gives `x`, whatever is behind them. -/
structure Reads (src : Source σ) (op : σ → Except ε (α × σ)) (s : σ) (x : α) (n : ℕ) : Prop where
  here : src.Same n s s
  result : ∀ t, src.Same n s t → op t = .ok (x, src.skip t n)

/-- Every run of the operation is an error that is no fault, or takes units for a result with
`Q`. -/
def Local (src : Source σ) (fault : ε → Prop) (op : σ → Except ε (α × σ)) (Q : α → Prop) : Prop :=
  ∀ s, src.Same 0 s s → (∃ e, op s = .error e ∧ ¬fault e) ∨ ∃ x n, Q x ∧ Reads src op s x n

variable {src : Source σ} {fault : ε → Prop} {op : σ → Except ε (α × σ)} {Q : α → Prop}
  {f : α → σ → Except ε (β × σ)} {R : β → Prop}

theorem Source.same_zero_skip {n : ℕ} {s : σ} (h : src.Same n s s) :
    src.Same 0 (src.skip s n) (src.skip s n) :=
  (src.same_append (n := 0)).mp h |>.2

theorem Local.pure {x : α} (h : Q x) :
    Local src fault (fun s => (.ok (x, s) : Except ε (α × σ))) Q := by
  intro s hs
  refine .inr ⟨x, 0, h, hs, ?_⟩
  intro t _
  rw [src.skip_zero]

theorem Local.error {e : ε} (h : ¬fault e) :
    Local src fault (fun _ => (.error e : Except ε (α × σ))) Q :=
  fun _ _ => .inl ⟨e, rfl, h⟩

theorem Local.congr {op' : σ → Except ε (α × σ)} (h : Local src fault op Q)
    (heq : ∀ s, op' s = op s) : Local src fault op' Q := by
  rw [show op' = op from funext heq]
  exact h

theorem Local.mono {Q' : α → Prop} (h : Local src fault op Q) (hQ : ∀ x, Q x → Q' x) :
    Local src fault op Q' := by
  intro s hs
  rcases h s hs with herror | ⟨x, n, hx, hreads⟩
  · exact .inl herror
  · exact .inr ⟨x, n, hQ x hx, hreads⟩

/-- **Local operations compose**: the second takes the units behind those of the first. -/
theorem Local.bind (h : Local src fault op Q) (hf : ∀ x, Q x → Local src fault (f x) R) :
    Local src fault (fun s => (op s).bind fun p => f p.1 p.2) R := by
  intro s hs
  rcases h s hs with ⟨e, herror, hfault⟩ | ⟨x, m, hx, hhere, hresult⟩
  · refine .inl ⟨e, ?_, hfault⟩
    show (op s).bind _ = _
    rw [herror]
    rfl
  have hrun : ∀ t, src.Same m s t → ((op t).bind fun p => f p.1 p.2) = f x (src.skip t m) := by
    intro t ht
    rw [hresult t ht]
    rfl
  rcases hf x hx (src.skip s m) (src.same_zero_skip hhere) with
    ⟨e, herror, hfault⟩ | ⟨y, n, hy, hhere', hresult'⟩
  · exact .inl ⟨e, (hrun s hhere).trans herror, hfault⟩
  · refine .inr ⟨y, m + n, hy, src.same_append.mpr ⟨hhere, hhere'⟩, ?_⟩
    intro t ht
    obtain ⟨hfirst, hsecond⟩ := src.same_append.mp ht
    rw [← src.skip_skip, ← hresult' _ hsecond]
    exact hrun t hfirst

end BasisRust.Library
