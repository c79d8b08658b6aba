import Mathlib.Tactic

/-!
# Readers

A reader consumes the beginning of its input. It may refuse the input with a message, or end in no
result at all. `Undoes read text a` says that a reader gets `a` from `text`, whatever comes after
it; the rules follow the steps of a reader.
-/

/-- `none` is no result at all, `error` a refusal. -/
def Reading (σ ε α : Type) := σ → Option (Except ε (α × σ))

namespace Reading
variable {σ ε α β : Type}

instance : Monad (Reading σ ε) where
  pure a := fun s => some (.ok (a, s))
  bind m f := fun s =>
    match m s with
    | none => none
    | some (.error e) => some (.error e)
    | some (.ok (a, s')) => f a s'

def refuse (e : ε) : Reading σ ε α := fun _ => some (.error e)

def stuck : Reading σ ε α := fun _ => none

theorem run_bind_of {m : Reading σ ε α} {f : α → Reading σ ε β} {s s' : σ} {a : α}
    (h : m s = some (.ok (a, s'))) : (m >>= f) s = f a s' := by
  have hbind : (m >>= f) s =
      match m s with
      | none => none
      | some (.error e) => some (.error e)
      | some (.ok (a, s₁)) => f a s₁ := rfl
  rw [hbind, h]

variable {τ : Type}

/-- On `text` followed by anything, `read` returns `a` and leaves what followed. -/
def Undoes (read : Reading (List τ) ε α) (text : List τ) (a : α) : Prop :=
  ∀ rest, read (text ++ rest) = some (.ok (a, rest))

namespace Undoes
variable {read : Reading (List τ) ε α} {u v w : List τ} {a : α}

theorem pure (a : α) : Undoes (Pure.pure a : Reading (List τ) ε α) [] a := fun _ => rfl

theorem bind {f : α → Reading (List τ) ε β} {b : β} (h : Undoes read u a) (hf : Undoes (f a) v b)
    (hw : w = u ++ v) : Undoes (read >>= f) w b := by
  intro rest
  rw [hw, List.append_assoc, run_bind_of (h _), hf]

/-- The first step is about a text that was read before. -/
theorem check {f : α → Reading (List τ) ε β} {b : β} (h : Undoes read [] a)
    (hf : Undoes (f a) v b) : Undoes (read >>= f) v b :=
  h.bind hf rfl

theorem map {f : α → β} (h : Undoes read u a) :
    Undoes (read >>= fun x => Pure.pure (f x)) u (f a) :=
  h.bind (.pure (f a)) (List.append_nil u).symm

end Undoes
end Reading
