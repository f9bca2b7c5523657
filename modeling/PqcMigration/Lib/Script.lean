/-
# PqcMigration.Lib.Script — programs that query a world, change it, and may fail or be killed.

A `Script` runs from a world to an `Outcome`: what it returned or raised, the world it left, and the
worlds it PASSED, one for each effect, in order. A script that is killed leaves one of
`w :: passed` behind (`Outcome.crashWorlds`), so statements about a crash at any point are statements
about that list. Queries pass no world; an effect passes the one it makes.
-/
import Mathlib.Tactic.Common

namespace PqcMigration.Lib

universe u v w

structure Outcome (W : Type u) (E : Type v) (α : Type w) where
  result : Except E α
  world : W
  passed : List W

/-- A program over the world `W` that raises `E`. -/
def Script (W : Type u) (E : Type v) (α : Type w) := W → Outcome W E α

/-- A query part that returned had its first step return. -/
theorem except_bind_eq_ok {E : Type v} {α β : Type w} {x : Except E α} {f : α → Except E β} {b : β}
    (h : (x >>= f) = .ok b) : ∃ a, x = .ok a ∧ f a = .ok b := by
  cases x with
  | error e => cases h
  | ok a => exact ⟨a, rfl, h⟩

namespace Script

variable {W : Type u} {E : Type v} {α β : Type w}

/-- What `f` does with the result of `m`, in the world `m` left. -/
def andThen (m : Script W E α) (f : α → Script W E β) : Script W E β := fun w =>
  match (m w).result with
  | .error e => ⟨.error e, (m w).world, (m w).passed⟩
  | .ok a =>
      let next := f a (m w).world
      ⟨next.result, next.world, (m w).passed ++ next.passed⟩

instance : Monad (Script W E) where
  pure a := fun w => ⟨.ok a, w, []⟩
  bind := andThen

/-- Look at the world. -/
def query (f : W → Except E α) : Script W E α := fun w => ⟨f w, w, []⟩

/-- Change the world. -/
def effect (f : W → Except E α × W) : Script W E α := fun w => ⟨(f w).1, (f w).2, [(f w).2]⟩

/-! ## What a sequence does -/

@[simp] theorem pure_apply (a : α) (w : W) :
    (pure a : Script W E α) w = ⟨.ok a, w, []⟩ := rfl

@[simp] theorem query_apply (f : W → Except E α) (w : W) :
    query f w = ⟨f w, w, []⟩ := rfl

@[simp] theorem effect_apply (f : W → Except E α × W) (w : W) :
    effect f w = ⟨(f w).1, (f w).2, [(f w).2]⟩ := rfl

theorem bind_of_ok {m : Script W E α} {f : α → Script W E β} {w : W} {a : α}
    (h : (m w).result = .ok a) :
    (m >>= f) w = ⟨(f a (m w).world).result, (f a (m w).world).world,
      (m w).passed ++ (f a (m w).world).passed⟩ := by
  show andThen m f w = _
  rw [andThen, h]

theorem bind_of_error {m : Script W E α} {f : α → Script W E β} {w : W} {e : E}
    (h : (m w).result = .error e) :
    (m >>= f) w = ⟨.error e, (m w).world, (m w).passed⟩ := by
  show andThen m f w = _
  rw [andThen, h]

/-- A query that answers leaves the rest of the script to run where it is. -/
theorem query_bind_of_ok {f : W → Except E α} {g : α → Script W E β} {w : W} {a : α}
    (h : f w = .ok a) : (query f >>= g) w = g a w := by
  rw [bind_of_ok h]
  rfl

/-- A query that raises ends the script where it is. -/
theorem query_bind_of_error {f : W → Except E α} {g : α → Script W E β} {w : W} {e : E}
    (h : f w = .error e) : (query f >>= g) w = ⟨.error e, w, []⟩ := bind_of_error h

/-- A script that returned had each of its parts return. -/
theorem bind_eq_ok {m : Script W E α} {f : α → Script W E β} {w : W} {b : β}
    (h : ((m >>= f) w).result = .ok b) :
    ∃ a, (m w).result = .ok a ∧ (f a (m w).world).result = .ok b := by
  cases hm : (m w).result with
  | error e =>
      rw [bind_of_error hm] at h
      cases h
  | ok a =>
      rw [bind_of_ok hm] at h
      exact ⟨a, rfl, h⟩

/-- The same where the first part is a query: the rest returned from the same world. -/
theorem query_bind_eq_ok {f : W → Except E α} {g : α → Script W E β} {w : W} {b : β}
    (h : ((query f >>= g) w).result = .ok b) : ∃ a, f w = .ok a ∧ (g a w).result = .ok b :=
  bind_eq_ok h

/-- The worlds a crash at some point of the run from `w` leaves behind. -/
def crashWorlds (m : Script W E α) (w : W) : List W := w :: (m w).passed

end Script

end PqcMigration.Lib
