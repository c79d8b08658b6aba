import SageOS.GuardedRun

/-!
# Super calls of the interpreter

A class is written as its record followed by the records of its ancestors, nearest first, so the
parent pointer is the tail, `NULL` is the empty list and being an ancestor is the suffix order.
The interpreter keeps the class that a super call starts from in the `__class__` binding of the
method's environment. Method calls and constructors bind it to the class that defines the method,
super calls to the parent they searched from, and the hooks `__str__` and `__eq__` do not bind it.
-/
namespace SageOS.SuperCall
open GuardedRun List Option
variable {β : Type*}

structure Method (β : Type*) where
  name : String
  stmt : β

structure ClassRecord (β : Type*) where
  name : String
  methods : List (Method β)

abbrev ClassValue (β : Type*) := List (ClassRecord β)

structure InstanceValue (β : Type*) where
  id : ℕ
  classDef : ClassValue β

def ClassRecord.find (r : ClassRecord β) (name : String) : Option (Method β) :=
  r.methods.find? (·.name == name)

def classFindMethod : ClassValue β → String → Option (Method β)
  | [], _ => none
  | r :: parent, name => (r.find name).or (classFindMethod parent name)

def classFindMethodOwner : ClassValue β → String → Option (ClassValue β)
  | [], _ => none
  | r :: parent, name =>
    if (r.find name).isSome then some (r :: parent) else classFindMethodOwner parent name

/-- What `env_get` finds for `self` and `__class__` in the environment of a method body. -/
structure MethodEnv (β : Type*) where
  self : InstanceValue β
  cls : Option (ClassValue β)

def MethodEnv.currentClass (env : MethodEnv β) : ClassValue β := env.cls.getD env.self.classDef

/-- The body that a super call runs and its environment; `none` is code outside every method. -/
def superCall (env : Option (MethodEnv β)) (name : String) :
    Except String (MethodEnv β × Method β) :=
  match env with
  | none => .error "Runtime Error: 'super' can only be used inside a method.\n"
  | some env =>
    match env.currentClass.tail with
    | [] => .error "Runtime Error: Class has no parent class for 'super'.\n"
    | parent@(_ :: _) =>
      match classFindMethod parent name with
      | none => .error s!"Runtime Error: Parent class has no method '{name}'.\n"
      | some method => .ok ({ self := env.self, cls := some parent }, method)

/-- A running method body, with the class that defines it and whether a super call entered it. -/
structure Activation (β : Type*) where
  env : MethodEnv β
  method : Method β
  definer : ClassValue β
  bySuper : Bool

/-- Calls of method bodies. A hook runs in the environment its object's class was defined in, so
it sees whatever `__class__` is bound to there. -/
inductive CallEvent (β : Type*) where
  | methodCall (object : InstanceValue β) (name : String)
  | construct (object : InstanceValue β)
  | hook (object : InstanceValue β) (name : String) (seen : Option (ClassValue β))
  | superCall (name : String)
  | leave

abbrev Stack (β : Type*) := List (Activation β)

def enter (object : InstanceValue β) (name : String)
    (cls : ClassValue β → Option (ClassValue β)) (stack : Stack β) : Stack β :=
  match classFindMethod object.classDef name, classFindMethodOwner object.classDef name with
  | some method, some owner => ⟨⟨object, cls owner⟩, method, owner, false⟩ :: stack
  | _, _ => stack

/-- The activation that a super call made in `env` enters. -/
def superEntry (env : Option (MethodEnv β)) (name : String) : Option (Activation β) :=
  match superCall env name with
  | .error _ => none
  | .ok (env, method) =>
    some ⟨env, method, (classFindMethodOwner (env.cls.getD []) name).getD [], true⟩

def step (stack : Stack β) : CallEvent β → Stack β
  | .methodCall object name => enter object name some stack
  | .construct object => enter object "init" some stack
  | .hook object name seen => enter object name (fun _ => seen) stack
  | .superCall name => (superEntry (stack.head?.map (·.env)) name).toList ++ stack
  | .leave => stack.tail

/-- The method of that name which the class itself has. -/
def own (c : ClassValue β) (name : String) : Option (Method β) := c.head?.bind (·.find name)

abbrev Defines (c : ClassValue β) (name : String) : Prop := (own c name).isSome

/-- The nearest proper ancestor of `c` that defines the method. -/
def Nearest (c : ClassValue β) (name : String) (k : ClassValue β) : Prop :=
  k <:+ c.tail ∧ Defines k name ∧ ∀ j, j <:+ c.tail → Defines j name → j <:+ k

theorem classFindMethodOwner_eq_some_iff {c k : ClassValue β} {name : String} :
    classFindMethodOwner c name = some k ↔
      k <:+ c ∧ Defines k name ∧ ∀ j, j <:+ c → Defines j name → j <:+ k := by
  induction c with
  | nil =>
    refine ⟨nofun, fun h => ?_⟩
    rw [suffix_nil.mp h.1] at h
    cases h.2.1
  | cons r parent ih =>
    rw [classFindMethodOwner]
    split_ifs with hr
    · refine ⟨?_, fun ⟨hk, _, hmax⟩ => ?_⟩
      · rintro ⟨⟩
        exact ⟨suffix_rfl, hr, fun _ hj _ => hj⟩
      · have := hmax _ suffix_rfl (hr)
        rw [this.eq_of_length_le hk.length_le]
    · rw [ih]
      have hno : ∀ j, j <:+ r :: parent → Defines j name → j <:+ parent := by
        intro j hj hd
        rcases suffix_cons_iff.mp hj with rfl | hj
        · exact absurd hd hr
        · exact hj
      refine ⟨fun ⟨hk, hd, hmax⟩ => ⟨hk.trans (suffix_cons ..), hd, fun j hj hj' =>
        hmax j (hno j hj hj') hj'⟩, fun ⟨hk, hd, hmax⟩ => ⟨hno k hk hd, hd, fun j hj =>
          hmax j (hj.trans (suffix_cons ..))⟩⟩

theorem nearest_iff {c k : ClassValue β} {name : String} :
    Nearest c name k ↔ classFindMethodOwner c.tail name = some k :=
  classFindMethodOwner_eq_some_iff.symm

/-- A method is found exactly when an owner is, and it is the owner's own definition. -/
theorem classFindMethod_eq (c : ClassValue β) (name : String) : classFindMethod c name =
      (classFindMethodOwner c name).bind fun k => own k name := by
  induction c with
  | nil => rfl
  | cons r parent ih =>
    rw [classFindMethod, classFindMethodOwner, ih]
    cases hr : r.find name <;> simp [hr, own]

theorem exists_owner {c j : ClassValue β} {name : String} (hj : j <:+ c) (hd : Defines j name) :
    ∃ k, classFindMethodOwner c name = some k ∧ j <:+ k := by
  induction c with
  | nil => rw [suffix_nil.mp hj] at hd; cases hd
  | cons r parent ih =>
    rw [classFindMethodOwner]
    split_ifs with hr
    · exact ⟨_, rfl, hj⟩
    · rcases suffix_cons_iff.mp hj with rfl | hj
      · exact absurd hd hr
      · exact ih hj

theorem classFindMethodOwner_eq_iff {c d : ClassValue β} {name : String} :
    classFindMethodOwner c name = classFindMethodOwner d name ↔
      ∀ k, Defines k name → (k <:+ c ↔ k <:+ d) := by
  have above {c d : ClassValue β} (h : classFindMethodOwner c name = classFindMethodOwner d name)
      {k : ClassValue β} (hd : Defines k name) (hk : k <:+ c) : k <:+ d := by
    obtain ⟨o, ho, hko⟩ := exists_owner hk hd
    exact hko.trans (classFindMethodOwner_eq_some_iff.mp (h ▸ ho)).1
  refine ⟨fun h k hd => ⟨above h hd, above h.symm hd⟩, fun h => Option.ext fun k => ?_⟩
  rw [classFindMethodOwner_eq_some_iff, classFindMethodOwner_eq_some_iff]
  constructor <;> rintro ⟨hk, hd, hmax⟩
  · exact ⟨(h k hd).mp hk, hd, fun j hj hj' => hmax j ((h j hj').mpr hj) hj'⟩
  · exact ⟨(h k hd).mpr hk, hd, fun j hj hj' => hmax j ((h j hj').mp hj) hj'⟩

theorem superEntry_eq (env : MethodEnv β) (name : String) : superEntry (some env) name =
      (classFindMethodOwner env.currentClass.tail name).bind fun k => (own k name).map fun method =>
        ⟨⟨env.self, some env.currentClass.tail⟩, method, k, true⟩ := by
  cases hp : env.currentClass.tail with
  | nil => simp only [superEntry, superCall, hp, classFindMethodOwner, bind_none]
  | cons r parent =>
    simp only [superEntry, superCall, hp, classFindMethod_eq]
    cases hk : classFindMethodOwner (r :: parent) name with
    | none => rfl
    | some k => cases hm : own k name <;> simp [hm, hk]

/-- The call reaches the nearest definition above the class whose method makes it, on the same
instance, and fails only when there is none. -/
def RightSuper (stack : Stack β) (name : String) : Prop :=
  ∀ a ∈ stack.head?, match superEntry (some a.env) name with
    | none => ∀ k, ¬Nearest a.definer name k
    | some b => Nearest a.definer name b.definer ∧
        own b.definer name = some b.method ∧ b.env.self = a.env.self

/-- The class in `__class__` and the class whose method runs have the same proper ancestors that
define the method. -/
def Aligned (stack : Stack β) (name : String) : Prop :=
  ∀ a ∈ stack.head?, ∀ k, Defines k name →
    (k <:+ a.env.currentClass.tail ↔ k <:+ a.definer.tail)

theorem rightSuper_iff_aligned (stack : Stack β) (name : String) :
    RightSuper stack name ↔ Aligned stack name := by
  refine forall₂_congr fun a _ => ?_
  rw [← classFindMethodOwner_eq_iff, eq_comm]
  rw [superEntry_eq]
  cases h : classFindMethodOwner a.env.currentClass.tail name with
  | none =>
    rw [eq_none_iff_forall_ne_some]
    exact forall_congr' fun k => not_congr nearest_iff
  | some k =>
    obtain ⟨method, hm⟩ := isSome_iff_exists.mp (classFindMethodOwner_eq_some_iff.mp h).2.1
    simp only [bind_some, hm, map_some, ← nearest_iff]
    exact and_iff_left ⟨trivial, trivial⟩

/-- The classes whose methods run in the innermost chain of super calls, latest first. -/
def superChain : Stack β → List (ClassValue β)
  | [] => []
  | a :: stack => a.definer :: if a.bySuper then superChain stack else []

/-- Each class of the chain is a proper ancestor of those before it, and every call of the chain
leaves one class fewer above. -/
def Orderly (stack : Stack β) : Prop :=
  (superChain stack).Pairwise (fun c d => c <:+ d ∧ c.length < d.length) ∧
    ∀ a ∈ stack.head?,
      (superChain stack).length + a.definer.length ≤ a.env.self.classDef.length + 1

theorem orderly_enter {object : InstanceValue β} {name : String}
    {cls : ClassValue β → Option (ClassValue β)} {stack : Stack β}
    (h : ∀ s, s <:+ stack → Orderly s) : ∀ s, s <:+ enter object name cls stack → Orderly s := by
  unfold enter
  split
  · next method owner _ howner =>
    intro s hs
    rcases suffix_cons_iff.mp hs with rfl | hs
    · refine ⟨pairwise_singleton .., ?_⟩
      rintro _ ⟨⟩
      have := (classFindMethodOwner_eq_some_iff.mp howner).1.length_le
      change 1 + owner.length ≤ object.classDef.length + 1
      omega
    · exact h s hs
  · exact h

theorem Nearest.length_lt {c k : ClassValue β} {name : String} (h : Nearest c name k) :
    k <:+ c ∧ k.length < c.length := by
  have hle := h.1.length_le
  rw [length_tail] at hle
  cases k with
  | nil => cases h.2.1
  | cons r parent => exact ⟨h.1.trans (tail_suffix c), by simp only [length_cons] at *; omega⟩

theorem orderly_superCall {stack : Stack β} {name : String} (h : ∀ s, s <:+ stack → Orderly s)
    (hright : RightSuper stack name) :
    ∀ s, s <:+ step stack (.superCall name) → Orderly s := by
  cases stack with
  | nil => exact h
  | cons a rest =>
    have hright := hright a rfl
    change ∀ s, s <:+ (superEntry (some a.env) name).toList ++ a :: rest → Orderly s
    cases hentry : superEntry (some a.env) name with
    | none => exact h
    | some b =>
      change ∀ s, s <:+ b :: a :: rest → Orderly s
      rw [hentry] at hright
      obtain ⟨hnear, -, hself⟩ := hright
      obtain ⟨hsuf, hlt⟩ := hnear.length_lt
      obtain ⟨hpair, hlen⟩ := h _ suffix_rfl
      have hlen := hlen a rfl
      have above : ∀ c ∈ superChain (a :: rest), b.definer <:+ c ∧ b.definer.length < c.length := by
        intro c hc
        rcases mem_cons.mp hc with rfl | hc
        · exact ⟨hsuf, hlt⟩
        · obtain ⟨hac, hlac⟩ := rel_of_pairwise_cons hpair hc
          exact ⟨hsuf.trans hac, hlt.trans hlac⟩
      intro s hs
      rcases suffix_cons_iff.mp hs with rfl | hs
      · rw [Orderly, superChain]
        split_ifs
        · refine ⟨pairwise_cons.mpr ⟨above, hpair⟩, ?_⟩
          rintro _ ⟨⟩
          rw [length_cons, hself]
          omega
        · refine ⟨pairwise_singleton .., ?_⟩
          rintro _ ⟨⟩
          rw [length_singleton, hself]
          omega
      · exact h s hs

def OnSuper (P : Stack β → String → Prop) (stack : Stack β) (e : CallEvent β) : Prop :=
  ∀ name, e = .superCall name → P stack name

theorem orderly_step {stack : Stack β} {e : CallEvent β} (h : ∀ s, s <:+ stack → Orderly s)
    (he : OnSuper RightSuper stack e) : ∀ s, s <:+ step stack e → Orderly s := by
  cases e with
  | methodCall | construct | hook => exact orderly_enter h
  | superCall name => exact orderly_superCall h (he name rfl)
  | leave => exact fun s hs => h s (hs.trans (tail_suffix stack))

/-- In every run each super call is right and every chain of super calls climbs, exactly when at
each super call the two classes have the same proper ancestors with the method. -/
theorem super_right_iff_aligned (es : List (CallEvent β)) :
    Guarded step (fun stack e => OnSuper RightSuper stack e ∧ Orderly (step stack e)) [] es ↔
      Guarded step (OnSuper Aligned) [] es := by
  suffices ∀ stack : Stack β, (∀ s, s <:+ stack → Orderly s) →
      (Guarded step (fun stack e => OnSuper RightSuper stack e ∧ Orderly (step stack e)) stack es ↔
        Guarded step (OnSuper Aligned) stack es) by
    refine this [] fun s hs => ?_
    rw [suffix_nil.mp hs]
    exact ⟨List.Pairwise.nil, nofun⟩
  induction es with
  | nil => exact fun _ _ => Iff.rfl
  | cons e es ih =>
    intro stack h
    have hiff : OnSuper RightSuper stack e ↔ OnSuper Aligned stack e :=
      forall₂_congr fun name _ => rightSuper_iff_aligned stack name
    refine ⟨fun ⟨hright, hes⟩ => ?_, fun ⟨haligned, hes⟩ => ?_⟩
    · exact ⟨hiff.mp hright.1, (ih _ (orderly_step h hright.1)).mp hes⟩
    · have hstep := orderly_step h (hiff.mpr haligned)
      exact ⟨⟨hiff.mpr haligned, hstep _ suffix_rfl⟩, (ih _ hstep).mpr hes⟩

/-- Four classes, of which the third defines nothing. -/
def gapped : ClassValue Unit :=
  [⟨"D", [⟨"m", ()⟩]⟩, ⟨"P", []⟩, ⟨"B", [⟨"m", ()⟩]⟩, ⟨"A", [⟨"m", ()⟩]⟩]

/-- The second super call is made in `B` and runs the method of `B` again. -/
theorem super_repeats_method :
    (superChain (run step [] [.methodCall ⟨0, gapped⟩ "m", .superCall "m", .superCall "m"])).map
      (fun c => c.map (·.name)) = [["B", "A"], ["B", "A"], ["D", "P", "B", "A"]] := by
  decide

end SageOS.SuperCall
