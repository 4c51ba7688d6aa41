/-!
# What a computation yields if it succeeds

`Yields P x` says that the value of `x` has the property `P` if there is one.  A reader that may
refuse its input keeps an invariant in this sense, and `Yields.foldlM` carries it through all of the
input.
-/

namespace BasisRust.Library

variable {ε α β : Type}

def Yields (P : α → Prop) (x : Except ε α) : Prop := ∀ a, x = .ok a → P a

namespace Yields

variable {P : α → Prop} {Q : β → Prop}

theorem ok {a : α} (h : P a) : Yields P (.ok a : Except ε α) := by
  intro b hb
  cases hb
  exact h

theorem error (e : ε) : Yields P (.error e : Except ε α) := nofun

theorem bind {x : Except ε β} {f : β → Except ε α} (hx : Yields Q x)
    (hf : ∀ b, Q b → Yields P (f b)) : Yields P (x >>= f) := by
  intro a ha
  cases x with
  | error e => cases ha
  | ok b => exact hf b (hx b rfl) a ha

theorem imp {P' : α → Prop} {x : Except ε α} (hx : Yields P x) (h : ∀ a, P a → P' a) :
    Yields P' x :=
  fun a ha => h a (hx a ha)

theorem foldlM {γ : Type} {f : α → γ → Except ε α} (l : List γ)
    (hf : ∀ a, P a → ∀ x ∈ l, Yields P (f a x)) : ∀ a, P a → Yields P (l.foldlM f a) := by
  induction l with
  | nil => exact fun a ha => .ok ha
  | cons x l ih =>
    intro a ha
    rw [List.foldlM_cons]
    refine (hf a ha x (.head _)).bind ?_
    exact ih fun b hb y hy => hf b hb y (.tail _ hy)

end Yields

end BasisRust.Library
