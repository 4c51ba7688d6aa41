import Mathlib.Data.Nat.Notation

/-!
# Programs that can be cut off

A program works on a medium `σ` in steps.  A schedule says what becomes of the steps: a step is
done, or it fails and nothing has changed, or its effect is there and the program still sees a
failure, or is stopped, right after it.  Since a failed step ends the program, a crash and an error
leave the same medium behind.

`Meets P m Q E` is the Hoare triple of such programs.  `E` holds of the medium wherever the program
may be cut off, so that it is what a later program finds after a crash.
-/

namespace BasisRust.Library

/-- What becomes of a step. -/
inductive Fault where
  | none
  | before
  | after
  deriving DecidableEq

/-- A program on a medium, with the schedule for its steps. -/
def Prog (ε σ α : Type) : Type := σ → List Fault → Except ε α × σ × List Fault

namespace Prog

variable {ε σ α β : Type}

instance : Monad (Prog ε σ) where
  pure a := fun s faults => (.ok a, s, faults)
  bind m f := fun s faults =>
    match m s faults with
    | (.ok a, s', faults') => f a s' faults'
    | (.error e, s', faults') => (.error e, s', faults')

/-- Give up. -/
def fail (e : ε) : Prog ε σ α := fun s faults => (.error e, s, faults)

/-- A step with an effect. -/
def attempt (e : ε) (f : σ → α × σ) : Prog ε σ α := fun s faults =>
  match faults with
  | [] => (.ok (f s).1, (f s).2, [])
  | .none :: faults => (.ok (f s).1, (f s).2, faults)
  | .before :: faults => (.error e, s, faults)
  | .after :: faults => (.error e, (f s).2, faults)

/-- A step that only reads. -/
def inspect (e : ε) (f : σ → α) : Prog ε σ α := fun s faults =>
  match faults with
  | [] => (.ok (f s), s, [])
  | .none :: faults => (.ok (f s), s, faults)
  | .before :: faults | .after :: faults => (.error e, s, faults)

/-- A step that fails without an effect or not at all. -/
def commit (e : ε) (f : σ → σ) : Prog ε σ Unit := fun s faults =>
  match faults with
  | [] => (.ok (), f s, [])
  | .none :: faults => (.ok (), f s, faults)
  | .before :: faults | .after :: faults => (.error e, s, faults)

/-- A change that cannot fail. -/
def modify (f : σ → σ) : Prog ε σ Unit := fun s faults => (.ok (), f s, faults)

/-- A look that cannot fail. -/
def view (f : σ → α) : Prog ε σ α := fun s faults => (.ok (f s), s, faults)

theorem bind_eq (m : Prog ε σ α) (f : α → Prog ε σ β) (s : σ) (faults : List Fault) :
    (m >>= f) s faults =
      match m s faults with
      | (.ok a, s', faults') => f a s' faults'
      | (.error e, s', faults') => (.error e, s', faults') := rfl

/-! ### Triples -/

/-- What is said of the end of a program. -/
def Ends (Q : α → σ → Prop) (E : ε → σ → Prop) : Except ε α × σ × List Fault → Prop
  | (.ok a, s, _) => Q a s
  | (.error e, s, _) => E e s

/-- From a medium with `P` the program ends with `Q`, or is cut off with `E`. -/
def Meets (P : σ → Prop) (m : Prog ε σ α) (Q : α → σ → Prop) (E : ε → σ → Prop) : Prop :=
  ∀ s faults, P s → Ends Q E (m s faults)

variable {P P' : σ → Prop} {Q : α → σ → Prop} {E : ε → σ → Prop} {m : Prog ε σ α} {e : ε}

theorem Meets.pure {a : α} (h : ∀ s, P s → Q a s) : Meets P (Pure.pure a : Prog ε σ α) Q E :=
  fun s _ hs => h s hs

theorem Meets.bind {R : β → σ → Prop} {n : Prog ε σ β} {f : β → Prog ε σ α} (hn : Meets P n R E)
    (hf : ∀ b, Meets (R b) (f b) Q E) : Meets P (n >>= f) Q E := by
  intro s faults hs
  have hend := hn s faults hs
  rw [bind_eq]
  generalize n s faults = r at hend
  obtain ⟨result, s', faults'⟩ := r
  cases result with
  | ok b => exact hf b s' faults' hend
  | error e => exact hend

theorem Meets.fail (h : ∀ s, P s → E e s) : Meets P (Prog.fail e : Prog ε σ α) Q E :=
  fun s _ hs => h s hs

theorem Meets.attempt {f : σ → α × σ} (hdone : ∀ s, P s → Q (f s).1 (f s).2)
    (hbefore : ∀ s, P s → E e s) (hafter : ∀ s, P s → E e (f s).2) :
    Meets P (Prog.attempt e f) Q E := by
  intro s faults hs
  cases faults with
  | nil => exact hdone s hs
  | cons fault faults =>
    cases fault with
    | none => exact hdone s hs
    | before => exact hbefore s hs
    | after => exact hafter s hs

theorem Meets.inspect {f : σ → α} (hdone : ∀ s, P s → Q (f s) s) (hfail : ∀ s, P s → E e s) :
    Meets P (Prog.inspect e f) Q E := by
  intro s faults hs
  cases faults with
  | nil => exact hdone s hs
  | cons fault faults =>
    cases fault with
    | none => exact hdone s hs
    | before | after => exact hfail s hs

theorem Meets.commit {f : σ → σ} {Q : Unit → σ → Prop} (hdone : ∀ s, P s → Q () (f s))
    (hfail : ∀ s, P s → E e s) : Meets P (Prog.commit e f) Q E := by
  intro s faults hs
  cases faults with
  | nil => exact hdone s hs
  | cons fault faults =>
    cases fault with
    | none => exact hdone s hs
    | before | after => exact hfail s hs

theorem Meets.modify {f : σ → σ} {Q : Unit → σ → Prop} (h : ∀ s, P s → Q () (f s)) :
    Meets P (Prog.modify f : Prog ε σ Unit) Q E :=
  fun s _ hs => h s hs

theorem Meets.view {f : σ → α} (h : ∀ s, P s → Q (f s) s) :
    Meets P (Prog.view f : Prog ε σ α) Q E :=
  fun s _ hs => h s hs

theorem Meets.imp {Q' : α → σ → Prop} {E' : ε → σ → Prop} (h : Meets P m Q E)
    (hP : ∀ s, P' s → P s) (hQ : ∀ a s, Q a s → Q' a s) (hE : ∀ e s, E e s → E' e s) :
    Meets P' m Q' E' := by
  intro s faults hs
  have hend := h s faults (hP s hs)
  generalize m s faults = r at hend ⊢
  obtain ⟨result, s', faults'⟩ := r
  cases result with
  | ok a => exact hQ a s' hend
  | error e => exact hE e s' hend

/-- A precondition may be fixed to one medium. -/
theorem Meets.of_forall (h : ∀ s, P s → Meets (· = s) m Q E) : Meets P m Q E :=
  fun s faults hs => h s hs s faults rfl

end Prog

end BasisRust.Library
