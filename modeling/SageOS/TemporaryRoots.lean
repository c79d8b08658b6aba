import SageOS.BoundedStack

/-!
# Temporary roots of the interpreter

`eval_expr` and `interpret` push the values and environments that only C variables hold on two
arrays of the thread, and pop them again on every way out. An execution is the tree of the
evaluations that it makes; its trace is the pushes and pops in the order of the source. The traces
are balanced, so what is pushed and not yet popped is exactly what the arrays hold as long as they
have room; beyond that a push is lost and its pop takes away another root.
-/
namespace SageOS.TempRoots
open List
open BoundedStack

def astGcTempMax : ℕ := 1024

def astGcEnvTempMax : ℕ := 256

inductive RootOp (V E : Type)
  | temp (op : Option V)
  | env (op : Option E)

variable {V E : Type}

/-- `AST_GC_PUSH`, `AST_GC_POP_N`, `AST_GC_PUSH_ENV` and `AST_GC_POP_ENV`. -/
def push (v : V) : RootOp V E := .temp (some v)

def popN (n : ℕ) : List (RootOp V E) := replicate n (.temp none)

def pushEnv (e : E) : RootOp V E := .env (some e)

def popEnv : RootOp V E := .env none

mutual

/-- An execution of `eval_expr` or of `interpret`. -/
inductive Exec (V E : Type)
  /-- Everything that pushes nothing, and every construct whose first operand throws. -/
  | plain (subs : Evals V E)
  | binary (left : Exec V E) (v : V) (right : Evals V E)
  | equality (left : Exec V E) (v : V) (right : Exec V E) (w : V) (body : Exec V E)
  | index (array : Exec V E) (v : V) (idx : Evals V E)
  | indexSet (array : Exec V E) (v : V) (idx : Exec V E) (w : V) (value : Exec V E)
  | slice (array : Exec V E) (v : V) (bounds : Evals V E)
  | setProperty (object : Exec V E) (v : V) (value : Evals V E)
  | method (object : Exec V E) (v : V) (e : E) (args last : Evals V E)
  | notInstance (object : Exec V E) (v : V) (call : Evals V E)
  | superMethod (e : E) (args last : Evals V E)
  | native (callee : Exec V E) (v : V) (args last : Evals V E)
  | function (callee : Exec V E) (v : V) (args : Evals V E) (e : E) (body : Exec V E)
  | generator (callee : Exec V E) (v : V) (e : E) (args last : Evals V E)
  | initThrows (callee : Exec V E) (v w : V) (e : E) (args : Evals V E) (arg : Exec V E)
  | init (callee : Exec V E) (v w : V) (e : E) (args : Evals V E) (body : Exec V E)
  | fieldThrows (callee : Exec V E) (v w : V) (args : Evals V E) (arg : Exec V E)
  | fields (callee : Exec V E) (v w : V) (args : Evals V E)
  | printed (value : Exec V E) (v : V) (e : E) (body : Evals V E)
  | forLoop (iterable : Exec V E) (v : V) (e : E) (bodies : Evals V E)
  | caught (block : Exec V E) (v : V) (clauses : Evals V E)
  | catchClause (e : E) (body : Exec V E)
  | finallyBlock (first : Exec V E) (v w : V) (body : Exec V E)
  | matching (value : Exec V E) (v : V) (cases : Evals V E)

/-- Evaluations one after the other, each with its value. -/
inductive Evals (V E : Type)
  | nil
  | cons (x : Exec V E) (v : V) (rest : Evals V E)

end

def Evals.length : Evals V E → ℕ
  | .nil => 0
  | .cons _ _ rest => rest.length + 1

mutual

def Exec.trace : Exec V E → List (RootOp V E)
  | .plain subs => subs.trace
  | .binary x v rest | .index x v rest | .slice x v rest | .setProperty x v rest
  | .caught x v rest | .matching x v rest => x.trace ++ push v :: rest.trace ++ popN 1
  | .equality left v right w body =>
    left.trace ++ push v :: right.trace ++ push w :: body.trace ++ popN 1 ++ popN 1
  | .indexSet array v idx w value =>
    array.trace ++ push v :: idx.trace ++ push w :: value.trace ++ popN 2
  | .method x v e args last | .generator x v e args last =>
    x.trace ++ push v :: pushEnv e :: args.pushed ++ last.trace ++
      popEnv :: popN (args.length + 1)
  | .notInstance object v call => object.trace ++ push v :: popN 1 ++ call.trace
  | .superMethod e args last =>
    pushEnv e :: args.pushed ++ last.trace ++ popEnv :: popN args.length
  | .native callee v args last =>
    callee.trace ++ push v :: args.pushed ++ last.trace ++ popN (args.length + 1)
  | .function callee v args e body =>
    callee.trace ++ push v :: args.pushed ++ pushEnv e :: body.trace ++
      popEnv :: popN (args.length + 1)
  | .initThrows callee v w e args arg =>
    callee.trace ++ push v :: push w :: pushEnv e :: args.pushed ++ arg.trace ++
      popEnv :: popN (args.length + 2)
  | .init callee v w e args body =>
    callee.trace ++ push v :: push w :: pushEnv e :: args.pushed ++ body.trace ++
      popEnv :: popN args.length ++ popN 2
  | .fieldThrows callee v w args arg =>
    callee.trace ++ push v :: push w :: args.pushed ++ arg.trace ++ popN (args.length + 2)
  | .fields callee v w args =>
    callee.trace ++ push v :: push w :: args.pushed ++ popN args.length ++ popN 2
  | .printed x v e body | .forLoop x v e body =>
    x.trace ++ push v :: pushEnv e :: body.trace ++ popEnv :: popN 1
  | .catchClause e body => pushEnv e :: body.trace ++ [popEnv]
  | .finallyBlock x v w body => x.trace ++ push v :: push w :: body.trace ++ popN 2

def Evals.trace : Evals V E → List (RootOp V E)
  | .nil => []
  | .cons x _ rest => x.trace ++ rest.trace

/-- The arguments of a call, each pushed when it has been evaluated. -/
def Evals.pushed : Evals V E → List (RootOp V E)
  | .nil => []
  | .cons x v rest => x.trace ++ push v :: rest.pushed

end

def Evals.values : Evals V E → List V
  | .nil => []
  | .cons _ v rest => v :: rest.values

/-- The entries below the two counts. -/
abbrev Roots (V E : Type) := List V × List E

/-- What is pushed and not yet popped. -/
def pending (s : Roots V E) : RootOp V E → Roots V E
  | .temp op => (step s.1 op, s.2)
  | .env op => (s.1, step s.2 op)

def store (s : Roots V E) : RootOp V E → Roots V E
  | .temp op => (boundedStep astGcTempMax s.1 op, s.2)
  | .env op => (s.1, boundedStep astGcEnvTempMax s.2 op)

def Fits (s : Roots V E) : Prop := s.1.length ≤ astGcTempMax ∧ s.2.length ≤ astGcEnvTempMax

variable {s : Roots V E} {v : V} {e : E} {n : ℕ} {ops : List (RootOp V E)}
section Balanced

@[simp] theorem pending_push : pending s (push v) = (s.1 ++ [v], s.2) := rfl

@[simp] theorem pending_pushEnv : pending s (pushEnv e) = (s.1, s.2 ++ [e]) := rfl

@[simp] theorem pending_popEnv : pending s popEnv = (s.1, s.2.dropLast) := rfl

@[simp] theorem foldl_popN_popN (m : ℕ) :
    (popN n).foldl pending ((popN m).foldl pending s) = (popN (m + n)).foldl pending s := by
  rw [← foldl_append, popN, popN, popN, replicate_append_replicate]

@[simp] theorem foldl_popN {a l : List V} {b : List E} (hl : l.length = n) :
    (popN n).foldl pending (a ++ l, b) = (a, b) := by
  induction l using List.reverseRecOn generalizing n with
  | nil =>
    subst hl
    simp [popN]
  | append_singleton l v ih =>
    obtain rfl : l.length + 1 = n := by simpa using hl
    have hpop : pending (a ++ (l ++ [v]), b) (.temp none) = (a ++ l, b) := by
      simp [pending, step, ← append_assoc]
    rw [popN, replicate_succ, foldl_cons, hpop]
    exact ih rfl

@[simp] theorem length_values (args : Evals V E) : args.values.length = args.length := by
  match args with
  | .nil => rfl
  | .cons x v rest => exact congrArg (· + 1) (length_values rest)

mutual

/-- Every way out of an evaluation pops what the evaluation has pushed. -/
theorem Exec.balanced (x : Exec V E) (s : Roots V E) : x.trace.foldl pending s = s := by
  match x with
  | .plain subs => exact subs.balanced s
  | .binary x v rest | .index x v rest | .slice x v rest | .setProperty x v rest
  | .caught x v rest | .matching x v rest => simp [Exec.trace, x.balanced, rest.balanced]
  | .equality left v right w body =>
    simp [Exec.trace, left.balanced, right.balanced, body.balanced]
  | .indexSet array v idx w value =>
    simp [Exec.trace, array.balanced, idx.balanced, value.balanced]
  | .method x v e args last | .generator x v e args last =>
    simp [Exec.trace, x.balanced, args.pushed_values, last.balanced]
  | .notInstance object v call => simp [Exec.trace, object.balanced, call.balanced]
  | .superMethod e args last => simp [Exec.trace, args.pushed_values, last.balanced]
  | .native x v args last => simp [Exec.trace, x.balanced, args.pushed_values, last.balanced]
  | .function x v args e body =>
    simp [Exec.trace, x.balanced, args.pushed_values, body.balanced]
  | .initThrows x v w e args y | .init x v w e args y =>
    simp [Exec.trace, x.balanced, args.pushed_values, y.balanced]
  | .fieldThrows x v w args y => simp [Exec.trace, x.balanced, args.pushed_values, y.balanced]
  | .fields x v w args => simp [Exec.trace, x.balanced, args.pushed_values]
  | .printed x v e body | .forLoop x v e body =>
    simp [Exec.trace, x.balanced, body.balanced]
  | .catchClause e body => simp [Exec.trace, body.balanced]
  | .finallyBlock x v w body => simp [Exec.trace, x.balanced, body.balanced]

theorem Evals.balanced (xs : Evals V E) (s : Roots V E) : xs.trace.foldl pending s = s := by
  match xs with
  | .nil => rfl
  | .cons x v rest => simp [Evals.trace, x.balanced, rest.balanced]

theorem Evals.pushed_values (args : Evals V E) (s : Roots V E) :
    args.pushed.foldl pending s = (s.1 ++ args.values, s.2) := by
  match args with
  | .nil => simp [Evals.pushed, Evals.values]
  | .cons x v rest => simp [Evals.pushed, Evals.values, x.balanced, rest.pushed_values]

end
end Balanced

section Bounded

theorem Fits.store (h : Fits s) (op : RootOp V E) : Fits (store s op) := by
  cases op with
  | temp op => exact ⟨length_boundedStep_le h.1 op, h.2⟩
  | env op => exact ⟨h.1, length_boundedStep_le h.2 op⟩

theorem boundedStep_eq_step {α : Type} {l : List α} {op : Option α}
    (h : (step l op).length ≤ n) : boundedStep n l op = step l op := by
  cases op with
  | none => rfl
  | some a =>
    have hlen : l.length + 1 ≤ n := by simpa [step] using h
    exact if_pos hlen

theorem store_eq_pending {op : RootOp V E} (h : Fits (pending s op)) :
    TempRoots.store s op = pending s op := by
  cases op with
  | temp op => exact congrArg (·, s.2) (boundedStep_eq_step h.1)
  | env op => exact congrArg (s.1, ·) (boundedStep_eq_step h.2)

theorem fits_foldl_store (h : Fits s) (ops : List (RootOp V E)) :
    Fits (ops.foldl TempRoots.store s) := by
  induction ops generalizing s with
  | nil => exact h
  | cons op ops ih => exact ih (h.store op)

theorem foldl_store_eq (h : ∀ done, done <+: ops → Fits (done.foldl pending s)) :
    ops.foldl TempRoots.store s = ops.foldl pending s := by
  induction ops generalizing s with
  | nil => rfl
  | cons op ops ih =>
    have hop : Fits (pending s op) := h [op] (by simp)
    rw [foldl_cons, foldl_cons, store_eq_pending hop]
    apply ih
    intro done hdone
    exact h (op :: done) (cons_prefix_cons.mpr ⟨rfl, hdone⟩)

theorem below_store {u : Roots V E} (h : Below s.1 u.1 ∧ Below s.2 u.2) (ops : List (RootOp V E)) :
    Below (ops.foldl store s).1 (ops.foldl pending u).1 ∧
      Below (ops.foldl store s).2 (ops.foldl pending u).2 := by
  induction ops generalizing s u with
  | nil => exact h
  | cons op ops ih =>
    apply ih
    cases op with
    | temp op => exact ⟨h.1.step op, h.2⟩
    | env op => exact ⟨h.1, h.2.step op⟩

end Bounded

variable (V E) in
/-- The arrays of a thread with their counts. -/
structure ThreadRoots where
  roots : Roots V E
  fits : Fits roots

/-- At each point of an evaluation the entries below the counts are, in order, those of before and
what has been pushed and not popped since, and in the end both counts are as before. -/
structure RootsExact (t : ThreadRoots V E) (x : Exec V E) : Prop where
  exact : ∀ done, done <+: x.trace → done.foldl store t.roots = done.foldl pending t.roots
  temps : (x.trace.foldl store t.roots).1.length = t.roots.1.length
  envs : (x.trace.foldl store t.roots).2.length = t.roots.2.length

theorem roots_exact_iff_fits (t : ThreadRoots V E) (x : Exec V E) :
    RootsExact t x ↔ ∀ done, done <+: x.trace → Fits (done.foldl pending t.roots) := by
  constructor
  · intro h done hdone
    rw [← h.exact done hdone]
    exact fits_foldl_store t.fits done
  · intro h
    have hexact : ∀ done, done <+: x.trace →
        done.foldl store t.roots = done.foldl pending t.roots := fun done hdone =>
      foldl_store_eq fun more hmore => h more (hmore.trans hdone)
    have hend := hexact x.trace prefix_rfl
    rw [x.balanced] at hend
    exact ⟨hexact, by rw [hend], by rw [hend]⟩

/-- Also with lost pushes, neither array gets longer. -/
theorem no_root_left_behind (x : Exec V E) :
    Below (x.trace.foldl store s).1 s.1 ∧ Below (x.trace.foldl store s).2 s.2 := by
  have h := below_store (u := s) ⟨.inl rfl, .inl rfl⟩ x.trace
  rwa [x.balanced] at h

/-- The innermost `n` calls of `proc f(): return f()`, down to the recursion limit. -/
def recursion : ℕ → Exec ℕ ℕ
  | 0 => .plain .nil
  | n + 1 => .function (.plain .nil) n .nil n
      (.plain (.cons (.plain (.cons (recursion n) 0 .nil)) 0 .nil))

theorem exists_pending_recursion (n : ℕ) (s : Roots ℕ ℕ) :
    ∃ done, done <+: (recursion n).trace ∧ (done.foldl pending s).2.length = s.2.length + n := by
  induction n generalizing s with
  | zero => exact ⟨[], nil_prefix, rfl⟩
  | succ n ih =>
    obtain ⟨done, ⟨rest, hrest⟩, hlen⟩ := ih (s.1 ++ [n], s.2 ++ [n])
    refine ⟨push n :: pushEnv n :: done, ?_, ?_⟩
    · simp [recursion, Exec.trace, Evals.trace, Evals.pushed, ← hrest]
    · rw [length_append, length_singleton] at hlen
      exact hlen.trans (by omega)

/-- From 256 environments on, the environment of a call is not among the roots while its body runs,
and the call takes the environment of its caller with it. -/
theorem recursion_loses_environments :
    ¬ RootsExact ⟨([], []), Nat.zero_le _, Nat.zero_le _⟩ (recursion 500) ∧
      0 ∉ (((recursion 1).trace.take 2).foldl store ([], List.range' 1 256)).2 ∧
      ((recursion 1).trace.foldl store ([], List.range' 1 256)).2 = List.range' 1 255 := by
  refine ⟨fun h => ?_, by decide +kernel, by decide +kernel⟩
  obtain ⟨done, hdone, hlen⟩ := exists_pending_recursion 500 ([], [])
  have hfits : Fits (done.foldl store (([], []) : Roots ℕ ℕ)) :=
    fits_foldl_store ⟨Nat.zero_le _, Nat.zero_le _⟩ done
  rw [h.exact done hdone] at hfits
  exact absurd (hlen ▸ hfits.2) (by decide)

end SageOS.TempRoots
