import Mathlib.Tactic

/-!
# Guarded runs

A run of a step function is the fold of its events. A run is guarded when every event meets a
condition in the state it is applied to. An invariant that every guarded step keeps holds at the
end of every guarded run, and so in every state such a run passes through.
-/
namespace GuardedRun
variable {S E : Type*} (step : S → E → S) (ok : S → E → Prop)

def run (s : S) (es : List E) : S := es.foldl step s

def Guarded : S → List E → Prop
  | _, [] => True
  | s, e :: es => ok s e ∧ Guarded (step s e) es

instance decidableGuarded [∀ s e, Decidable (ok s e)] :
    ∀ s es, Decidable (Guarded step ok s es)
  | _, [] => .isTrue trivial
  | s, e :: es =>
    have := decidableGuarded (step s e) es
    inferInstanceAs (Decidable (_ ∧ _))

@[simp] theorem run_nil (s : S) : run step s [] = s := rfl

@[simp] theorem run_cons (s : S) (e : E) (es : List E) :
    run step s (e :: es) = run step (step s e) es := rfl

theorem run_append (s : S) (es fs : List E) :
    run step s (es ++ fs) = run step (run step s es) fs := List.foldl_append

variable {step ok}
variable {s : S}

theorem invariant_run {Inv : S → Prop} (hstep : ∀ s e, Inv s → ok s e → Inv (step s e))
    (hs : Inv s) {es : List E} (hes : Guarded step ok s es) : Inv (run step s es) := by
  induction es generalizing s with
  | nil => exact hs
  | cons e es ih => exact ih (hstep s e hs hes.1) hes.2

theorem guarded_append {es fs : List E} :
    Guarded step ok s (es ++ fs) ↔ Guarded step ok s es ∧ Guarded step ok (run step s es) fs := by
  induction es generalizing s with
  | nil => exact ⟨fun h => ⟨trivial, h⟩, fun h => h.2⟩
  | cons e es ih => exact (and_congr_right fun _ => ih).trans and_assoc.symm

theorem Guarded.take {es : List E} (hes : Guarded step ok s es) (n : ℕ) :
    Guarded step ok s (es.take n) := by
  induction es generalizing s n with
  | nil => simpa using hes
  | cons e es ih =>
    cases n with
    | zero => trivial
    | succ n => exact ⟨hes.1, ih hes.2 n⟩

end GuardedRun
