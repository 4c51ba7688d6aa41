import Mathlib.Data.Nat.Notation

/-!
# Programs that can be interrupted

A program is a tree of calls.  A call is carried out, with an error of its own or without; or it
fails and nothing has changed, which the program can handle; or the program stops in front of it for
good.  Looks at the state, and changes of what does not outlive the program, cannot fail.

`Meets` is the weakest precondition of such programs: with `Q` and `E` for their two ends and `I`
for the states in which they may be stopped.  Which calls may fail or be stopped at is a parameter.
-/

namespace BasisRust.Library

/-- A program with calls `κ` on states `σ`. -/
inductive Routine (κ σ ε α : Type) where
  | done (result : Except ε α)
  | view (next : σ → Routine κ σ ε α)
  | modify (f : σ → σ) (next : Routine κ σ ε α)
  | call (c : κ) (next : Except ε Unit → Routine κ σ ε α)

namespace Routine

variable {κ σ ε α β : Type}

/-- Go on with the result of a program, error or not. -/
def handle : Routine κ σ ε α → (Except ε α → Routine κ σ ε β) → Routine κ σ ε β
  | .done r, f => f r
  | .view next, f => .view fun s => (next s).handle f
  | .modify g next, f => .modify g (next.handle f)
  | .call c next, f => .call c fun r => (next r).handle f

def bind (m : Routine κ σ ε α) (f : α → Routine κ σ ε β) : Routine κ σ ε β :=
  m.handle fun
    | .ok a => f a
    | .error e => .done (.error e)

instance : Monad (Routine κ σ ε) where
  pure a := .done (.ok a)
  bind := bind

def fail (e : ε) : Routine κ σ ε α := .done (.error e)

/-- One call. -/
def perform (c : κ) : Routine κ σ ε Unit := .call c .done

def update (f : σ → σ) : Routine κ σ ε Unit := .modify f (.done (.ok ()))

def attempt (m : Routine κ σ ε α) : Routine κ σ ε (Except ε α) := m.handle fun r => .done (.ok r)

def forEach (f : β → Routine κ σ ε Unit) : List β → Routine κ σ ε Unit
  | [] => pure ()
  | x :: xs => do
    f x
    forEach f xs

/-- The program up to its next call. -/
def settle : Routine κ σ ε α → σ → Routine κ σ ε α × σ
  | .done r, s => (.done r, s)
  | .view next, s => (next s).settle s
  | .modify f next, s => next.settle (f s)
  | .call c next, s => (.call c next, s)

/-- A program that nothing interrupts. -/
def run (apply : κ → σ → Except ε σ) : Routine κ σ ε α → σ → Except ε α × σ
  | .done r, s => (r, s)
  | .view next, s => (next s).run apply s
  | .modify f next, s => next.run apply (f s)
  | .call c next, s =>
    match apply c s with
    | .ok s' => (next (.ok ())).run apply s'
    | .error e => (next (.error e)).run apply s

/-- The calls that may fail, and those that a program may be stopped at. -/
structure Hazards (κ σ : Type) where
  fails : κ → σ → Prop
  stops : κ → σ → Prop

/-- Some call may fail. -/
def Hazards.Faulty (hz : Hazards κ σ) : Prop := ∃ c s, hz.fails c s

/-- Nothing interrupts. -/
def Hazards.none : Hazards κ σ := ⟨fun _ _ => False, fun _ _ => False⟩

theorem Hazards.not_faulty_none : ¬ (Hazards.none : Hazards κ σ).Faulty := fun ⟨_, _, h⟩ => h

section

variable (apply : κ → σ → Except ε σ) (io : ε) (hz : Hazards κ σ) (I : σ → Prop)

/-- What is said of the end of a program. -/
def Ends (Q : α → σ → Prop) (E : ε → σ → Prop) : Except ε α → σ → Prop
  | .ok a, s => Q a s
  | .error e, s => E e s

/-- The program ends with `Q` or `E`, and is stopped only where `I` holds. -/
def Meets (Q : α → σ → Prop) (E : ε → σ → Prop) : Routine κ σ ε α → σ → Prop
  | .done r, s => Ends Q E r s
  | .view next, s => Meets Q E (next s) s
  | .modify f next, s => Meets Q E next (f s)
  | .call c next, s =>
    (hz.stops c s → I s) ∧ (hz.fails c s → Meets Q E (next (.error io)) s) ∧
      Ends (fun s' _ => Meets Q E (next (.ok ())) s')
        (fun e s => Meets Q E (next (.error e)) s) (apply c s) s

end

variable {apply : κ → σ → Except ε σ} {io : ε} {hz : Hazards κ σ} {I : σ → Prop}
  {Q : α → σ → Prop} {E : ε → σ → Prop} {m : Routine κ σ ε α} {s : σ} {E' : ε → σ → Prop}
  {R : β → σ → Prop}

theorem meets_call {c : κ} {next : Except ε Unit → Routine κ σ ε α} :
    Meets apply io hz I Q E (.call c next) s ↔ (hz.stops c s → I s) ∧
      (hz.fails c s → Meets apply io hz I Q E (next (.error io)) s) ∧
      Ends (fun s' _ => Meets apply io hz I Q E (next (.ok ())) s')
        (fun e s => Meets apply io hz I Q E (next (.error e)) s) (apply c s) s :=
  Iff.rfl

theorem meets_view {next : σ → Routine κ σ ε α} :
    Meets apply io hz I Q E (.view next) s ↔ Meets apply io hz I Q E (next s) s :=
  Iff.rfl

theorem Ends.imp {γ : Type} {Q Q' : γ → σ → Prop} {E : ε → σ → Prop} {r : Except ε γ}
    (h : Ends Q E r s) (hQ : ∀ a, Q a s → Q' a s) (hE : ∀ e, E e s → E' e s) : Ends Q' E' r s := by
  cases r with
  | ok a => exact hQ a h
  | error e => exact hE e h

theorem Meets.handle {f : Except ε α → Routine κ σ ε β}
    (hm : Meets apply io hz I (fun a => Meets apply io hz I R E' (f (.ok a)))
      (fun e => Meets apply io hz I R E' (f (.error e))) m s) :
    Meets apply io hz I R E' (m.handle f) s := by
  induction m generalizing s with
  | done r =>
    cases r with
    | ok | error => exact hm
  | view next ih => exact ih s hm
  | modify g next ih => exact ih hm
  | call c next ih =>
    obtain ⟨hstop, hfail, hdone⟩ := meets_call.mp hm
    exact meets_call.mpr ⟨hstop, fun h => ih _ (hfail h), hdone.imp (fun _ => ih _) fun _ => ih _⟩

section

variable (hm : Meets apply io hz I Q E m s)
include hm

theorem Meets.imp {Q' : α → σ → Prop} (hQ : ∀ a s, Q a s → Q' a s) (hE : ∀ e s, E e s → E' e s) :
    Meets apply io hz I Q' E' m s := by
  induction m generalizing s with
  | done r =>
    cases r with
    | ok a => exact hQ a s hm
    | error e => exact hE e s hm
  | view next ih => exact ih s hm
  | modify g next ih => exact ih hm
  | call c next ih =>
    obtain ⟨hstop, hfail, hdone⟩ := meets_call.mp hm
    exact meets_call.mpr ⟨hstop, fun h => ih _ (hfail h), hdone.imp (fun _ => ih _) fun _ => ih _⟩

theorem Meets.bind {f : α → Routine κ σ ε β} (hf : ∀ a s, Q a s → Meets apply io hz I R E' (f a) s)
    (hE : ∀ e s, E e s → E' e s) :
    Meets apply io hz I R E' (m >>= f) s :=
  Meets.handle (hm.imp hf hE)

/-- Both ends become results. -/
theorem Meets.attempt {f : Except ε α → Routine κ σ ε β}
    (hf : ∀ a s, Q a s → Meets apply io hz I R E' (f (.ok a)) s)
    (hE : ∀ e s, E e s → Meets apply io hz I R E' (f (.error e)) s) :
    Meets apply io hz I R E' (m.attempt >>= f) s :=
  Meets.handle (Meets.handle (hm.imp hf hE))

end

/-- The rule for a loop: the invariant is on the elements that are left. -/
theorem Meets.forEach {f : β → Routine κ σ ε Unit} {l : List β} (Inv : List β → σ → Prop)
    (hf : ∀ x xs s, Inv (x :: xs) s → Meets apply io hz I (fun _ => Inv xs) E (f x) s)
    (hl : Inv l s) :
    Meets apply io hz I (fun _ => Inv []) E (forEach f l) s := by
  induction l generalizing s with
  | nil => exact hl
  | cons x xs ih => exact (hf x xs s hl).bind (fun _ _ => ih) fun _ _ h => h

theorem Meets.run (hm : Meets apply io hz I Q E m s) :
    Ends Q E (m.run apply s).1 (m.run apply s).2 := by
  induction m generalizing s with
  | done r => exact hm
  | view next ih => exact ih s hm
  | modify g next ih => exact ih hm
  | call c next ih =>
    have hdone := (meets_call.mp hm).2.2
    unfold Routine.run
    cases h : apply c s with
    | ok | error =>
      rw [h] at hdone
      exact ih _ hdone

theorem meets_settle :
    Meets apply io hz I Q E (m.settle s).1 (m.settle s).2 ↔ Meets apply io hz I Q E m s := by
  induction m generalizing s with
  | done | call => exact Iff.rfl
  | view next ih => exact ih s
  | modify g next ih => exact ih

end Routine

end BasisRust.Library
