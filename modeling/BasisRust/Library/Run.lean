import Mathlib.Data.Nat.Notation
import Mathlib.Logic.Basic

/-!
# Labelled transition systems and their runs

A system is a set of initial states and a partial step function on labelled actions.  `Reachable`
takes a side condition `ok` on the pairs `(state, action)` a run may use, so that the same system
can be run under an assumption on its environment without being defined twice.
-/

namespace BasisRust.Library

/-- A labelled transition system with a partial step function. -/
structure System (σ α : Type) where
  init : σ → Prop
  step : σ → α → Option σ

variable {σ α : Type} {i : ℕ}

/-- The states of the runs of `sys` whose steps all satisfy `ok`. -/
inductive Reachable (sys : System σ α) (ok : σ → α → Prop) : σ → Prop where
  | init {s : σ} (h : sys.init s) : Reachable sys ok s
  | step {s s' : σ} {a : α} (hr : Reachable sys ok s) (hok : ok s a)
      (hs : sys.step s a = some s') : Reachable sys ok s'

namespace Reachable

variable {sys : System σ α} {ok ok' : σ → α → Prop} {Known : σ → Prop} {s : σ}

theorem invariant (Inv : σ → Prop) (hinit : ∀ s, sys.init s → Inv s)
    (hstep : ∀ s a s', Inv s → ok s a → sys.step s a = some s' → Inv s')
    (h : Reachable sys ok s) : Inv s := by
  induction h with
  | init h => exact hinit _ h
  | step _ hok hs ih => exact hstep _ _ _ ih hok hs

/-- The invariant rule on top of a property that every reachable state is known to have. -/
theorem invariant_of (Inv : σ → Prop) (hknown : ∀ s, Reachable sys ok s → Known s)
    (hinit : ∀ s, sys.init s → Inv s)
    (hstep : ∀ s a s', Known s → Inv s → ok s a → sys.step s a = some s' → Inv s')
    (h : Reachable sys ok s) : Inv s := by
  induction h with
  | init h => exact hinit _ h
  | step hr hok hs ih => exact hstep _ _ _ (hknown _ hr) ih hok hs

theorem mono (himp : ∀ s a, ok s a → ok' s a) (h : Reachable sys ok s) : Reachable sys ok' s := by
  induction h with
  | init h => exact .init h
  | step _ hok hs ih => exact .step ih (himp _ _ hok) hs

end Reachable

/-- Run a list of actions from a state; `none` as soon as one of them is not enabled. -/
def runActions (sys : System σ α) : σ → List α → Option σ
  | s, [] => some s
  | s, a :: as =>
    match sys.step s a with
    | none => none
    | some s' => runActions sys s' as

/-- Every step of the run of `as` from `s` satisfies the side condition. -/
def Admits (sys : System σ α) (ok : σ → α → Prop) : σ → List α → Prop
  | _, [] => True
  | s, a :: as => ok s a ∧ ∀ s' ∈ sys.step s a, Admits sys ok s' as

variable {sys : System σ α} {ok : σ → α → Prop} {as l : List α} {s : σ} {x : α}

theorem Admits.of_forall (h : ∀ s a, ok s a) (s : σ) (as : List α) : Admits sys ok s as := by
  induction as generalizing s with
  | nil => trivial
  | cons a as ih => exact ⟨h s a, fun s' _ => ih s'⟩

theorem Admits.of_forall_mem (h : ∀ s, ∀ a ∈ as, ok s a) : ∀ s, Admits sys ok s as := by
  induction as with
  | nil => exact fun _ => trivial
  | cons a as ih =>
    intro s
    exact ⟨h s a (.head _), fun s' _ => ih (fun s b hb => h s b (.tail _ hb)) s'⟩

instance Admits.decidable (sys : System σ α) (ok : σ → α → Prop) [∀ s a, Decidable (ok s a)] :
    ∀ s as, Decidable (Admits sys ok s as)
  | _, [] => isTrue trivial
  | s, a :: as =>
    have : ∀ s', Decidable (Admits sys ok s' as) := fun s' => Admits.decidable sys ok s' as
    inferInstanceAs (Decidable (ok s a ∧ ∀ s' ∈ sys.step s a, Admits sys ok s' as))

/-- Every state an admitted list of actions leads to is reachable. -/
theorem reachable_runActions {s' : σ} (hok : Admits sys ok s as) (hs : Reachable sys ok s)
    (h : runActions sys s as = some s') : Reachable sys ok s' := by
  induction as generalizing s with
  | nil =>
    simp only [runActions, Option.some.injEq] at h
    exact h ▸ hs
  | cons a as ih =>
    simp only [runActions] at h
    split at h
    · cases h
    · rename_i s₁ h₁
      exact ih (hok.2 s₁ h₁) (.step hs hok.1 h₁) h

/-- An admitted run that ends in a state with a property reaches such a state. -/
theorem exists_reachable_of_run (ok : σ → α → Prop) {P : σ → Bool} (hok : Admits sys ok s as)
    (hs : Reachable sys ok s) (h : (runActions sys s as).any P = true) :
    ∃ s', Reachable sys ok s' ∧ P s' = true := by
  obtain ⟨hsome, hP⟩ := (Option.any_eq_true_iff_get _ _).mp h
  exact ⟨_, reachable_runActions hok hs (Option.some_get hsome).symm, hP⟩

/-- The same for the runs that nothing restricts. -/
theorem exists_reachable_of_free_run {P : σ → Bool} (hs : Reachable sys (fun _ _ => True) s)
    (h : (runActions sys s as).any P = true) :
    ∃ s', Reachable sys (fun _ _ => True) s' ∧ P s' = true :=
  exists_reachable_of_run _ (.of_forall (fun _ _ => trivial) s as) hs h

/-! ### Lists of tasks

The tasks of a system are a list, and a step replaces or removes one of them. -/

theorem mem_set_or_eq {t t' : α} (ht : l[i]? = some t) (hx : x ∈ l) : x ∈ l.set i t' ∨ x = t := by
  obtain ⟨j, hj, rfl⟩ := List.mem_iff_getElem.mp hx
  by_cases hij : i = j
  · subst hij
    rw [List.getElem?_eq_getElem hj, Option.some.injEq] at ht
    exact .inr ht
  · left
    have hset : (l.set i t')[j]? = some l[j] := by
      rw [List.getElem?_set_ne hij, List.getElem?_eq_getElem hj]
    exact List.mem_of_getElem? hset

theorem mem_eraseIdx_or_eq {t : α} (ht : l[i]? = some t) (hx : x ∈ l) :
    x ∈ l.eraseIdx i ∨ x = t := by
  obtain ⟨hi, rfl⟩ := List.getElem?_eq_some_iff.mp ht
  rw [← List.take_append_drop i l, List.drop_eq_getElem_cons hi, List.mem_append,
    List.mem_cons] at hx
  rw [List.eraseIdx_eq_take_drop_succ, List.mem_append]
  rcases hx with hx | hx | hx
  · exact .inl (.inl hx)
  · exact .inr hx
  · exact .inl (.inr hx)

/-! ### Lists that grow at the end

A history only grows, so that what has a place in it keeps the place. -/

theorem lt_of_getElem? (h : l[i]? = some x) : i < l.length :=
  (List.getElem?_eq_some_iff.mp h).1

theorem getElem?_append_singleton {y : α} (h : (l ++ [y])[i]? = some x) :
    (i < l.length ∧ l[i]? = some x) ∨ (i = l.length ∧ x = y) := by
  rcases Nat.lt_or_ge i l.length with hlt | hge
  · rw [List.getElem?_append_left hlt] at h
    exact .inl ⟨hlt, h⟩
  · have hlt := lt_of_getElem? h
    rw [List.length_append, List.length_singleton] at hlt
    obtain rfl : i = l.length := by omega
    rw [List.getElem?_concat_length] at h
    exact .inr ⟨rfl, (Option.some.inj h).symm⟩

end BasisRust.Library
