import Mathlib.Data.List.Basic

/-!
Computations that record events. A computation has a value and the list of the
events on the way to it, in order; what holds of every event of a computation is
put together from its parts.
-/
namespace HftSystem.Tracing

universe u v

structure Traced (ε : Type u) (α : Type v) where
  value : α
  events : List ε

namespace Traced

variable {ε : Type u} {α β : Type v}

instance : Monad (Traced ε) where
  pure a := ⟨a, []⟩
  bind x f := ⟨(f x.value).value, x.events ++ (f x.value).events⟩

/-- The value a, recorded as the event e. -/
def record (e : ε) (a : α) : Traced ε α := ⟨a, [e]⟩

/-- Every event of the computation satisfies P. -/
def Satisfies (P : ε → Prop) (x : Traced ε α) : Prop := ∀ e ∈ x.events, P e

@[simp] theorem value_pure (a : α) : (pure a : Traced ε α).value = a := rfl

@[simp] theorem value_bind (x : Traced ε α) (f : α → Traced ε β) :
    (x >>= f).value = (f x.value).value := rfl

theorem value_ite (c : Prop) [Decidable c] (x y : Traced ε α) :
    (if c then x else y).value = if c then x.value else y.value := apply_ite _ _ _ _

variable {P : ε → Prop}

theorem satisfies_pure (a : α) : Satisfies P (pure a : Traced ε α) :=
  fun _ he => absurd he List.not_mem_nil

theorem satisfies_record {e : ε} (he : P e) (a : α) : Satisfies P (record e a) :=
  fun _ hmem => List.mem_singleton.mp hmem ▸ he

theorem satisfies_bind (x : Traced ε α) (f : α → Traced ε β) :
    Satisfies P (x >>= f) ↔ Satisfies P x ∧ Satisfies P (f x.value) :=
  List.forall_mem_append

theorem Satisfies.bind {x : Traced ε α} {f : α → Traced ε β} (hx : Satisfies P x)
    (hf : Satisfies P (f x.value)) : Satisfies P (x >>= f) := (satisfies_bind x f).mpr ⟨hx, hf⟩

end Traced

end HftSystem.Tracing
