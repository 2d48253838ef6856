import Mathlib.Tactic.Common

/-!
# Stateful computations that can throw

A computation reads and changes a state and returns a value, throws an exception, or
stops because a recursion bound was used up. An exception does not undo anything: the
state reached when it was thrown is the state its handler sees. Running out of the
recursion bound is not an exception and no handler catches it.

`Ensures` states what a computation does from a given state, with one postcondition for a
returned value and one for a thrown exception. It is the weakest precondition of the two,
and the rules below compute it along the constructors of a program, so a proof about a
program follows its text. `Keeps` is the special case of an invariant.
-/

/-- How a computation ended. -/
inductive Outcome (ε α : Type) where
  | ok (value : α)
  | thrown (exception : ε)
  | exhausted
  deriving DecidableEq, Repr

theorem except_bind_eq_ok {ε α β : Type} {x : Except ε α} {f : α → Except ε β} {y : β} :
    (x >>= f) = .ok y ↔ ∃ z, x = .ok z ∧ f z = .ok y := by
  cases x with
  | error e =>
    constructor
    · intro failed
      cases failed
    · rintro ⟨z, failed, -⟩
      cases failed
  | ok z =>
    constructor
    · intro done
      exact ⟨z, rfl, done⟩
    · rintro ⟨z, same, done⟩
      cases same
      exact done

theorem except_map_eq_ok {ε α β : Type} {x : Except ε α} {f : α → β} {y : β} :
    x.map f = .ok y ↔ ∃ z, x = .ok z ∧ f z = y := by
  cases x <;> simp [Except.map]

/-- A computation over the state `σ` with exceptions `ε`. -/
structure Exec (σ ε α : Type) where
  run : σ → Outcome ε α × σ

namespace Exec

variable {σ ε α β : Type}

instance : Monad (Exec σ ε) where
  pure value := ⟨fun state => (.ok value, state)⟩
  bind first next := ⟨fun state =>
    match first.run state with
    | (.ok value, after) => (next value).run after
    | (.thrown exception, after) => (.thrown exception, after)
    | (.exhausted, after) => (.exhausted, after)⟩

/-- The current state. -/
def get : Exec σ ε σ :=
  ⟨fun state => (.ok state, state)⟩

/-- Replace the state. -/
def modify (change : σ → σ) : Exec σ ε Unit :=
  ⟨fun state => (.ok (), change state)⟩

/-- Throw an exception in the current state. -/
def throw (exception : ε) : Exec σ ε α :=
  ⟨fun state => (.thrown exception, state)⟩

/-- Stop because the recursion bound is used up. -/
def exhaust : Exec σ ε α :=
  ⟨fun state => (.exhausted, state)⟩

/-- A read of the state that may throw. -/
def reads (read : σ → Except ε α) : Exec σ ε α :=
  ⟨fun state =>
    match read state with
    | .ok value => (.ok value, state)
    | .error exception => (.thrown exception, state)⟩

/-- Run the handler, in the state reached, if the computation throws. -/
def tryCatch (body : Exec σ ε α) (handler : ε → Exec σ ε α) : Exec σ ε α :=
  ⟨fun state =>
    match body.run state with
    | (.thrown exception, after) => (handler exception).run after
    | result => result⟩

/-- Run a computation for every element of a list, in order. -/
def forEach (body : α → Exec σ ε Unit) : List α → Exec σ ε Unit
  | [] => pure ()
  | item :: rest => do
      body item
      forEach body rest

/-- Run a computation on a part of the state. -/
def zoom {τ : Type} (part : σ → τ) (update : τ → σ → σ) (body : Exec τ ε α) : Exec σ ε α :=
  ⟨fun state =>
    ((body.run (part state)).1, update (body.run (part state)).2 state)⟩

/-! ## Execution -/

variable (change : σ → σ) (exception : ε) (value : α)

@[simp] theorem pure_run (state : σ) :
    (pure value : Exec σ ε α).run state = (.ok value, state) := rfl

theorem bind_run (first : Exec σ ε α) (next : α → Exec σ ε β) (state : σ) :
    (first >>= next).run state =
      match first.run state with
      | (.ok value, after) => (next value).run after
      | (.thrown exception, after) => (.thrown exception, after)
      | (.exhausted, after) => (.exhausted, after) := rfl

@[simp] theorem get_run (state : σ) : (get : Exec σ ε σ).run state = (.ok state, state) := rfl

@[simp] theorem modify_run (state : σ) :
    (modify change : Exec σ ε Unit).run state = (.ok (), change state) := rfl

@[simp] theorem throw_run (state : σ) :
    (throw exception : Exec σ ε α).run state = (.thrown exception, state) := rfl

theorem reads_run (read : σ → Except ε α) (state : σ) :
    (reads read).run state =
      match read state with
      | .ok value => (.ok value, state)
      | .error exception => (.thrown exception, state) := rfl

theorem tryCatch_run (body : Exec σ ε α) (handler : ε → Exec σ ε α) (state : σ) :
    (tryCatch body handler).run state =
      match body.run state with
      | (.thrown exception, after) => (handler exception).run after
      | result => result := rfl

theorem zoom_run {τ : Type} (part : σ → τ) (update : τ → σ → σ) (body : Exec τ ε α)
    (state : σ) :
    (zoom part update body).run state =
      ((body.run (part state)).1, update (body.run (part state)).2 state) := rfl

@[simp] theorem pure_bind_run (next : α → Exec σ ε β) (state : σ) :
    (pure value >>= next).run state = (next value).run state := rfl

@[simp] theorem get_bind_run (next : σ → Exec σ ε β) (state : σ) :
    (get >>= next).run state = (next state).run state := rfl

@[simp] theorem modify_bind_run (next : Unit → Exec σ ε β) (state : σ) :
    (modify change >>= next).run state = (next ()).run (change state) := rfl

@[simp] theorem ite_run (condition : Prop) [Decidable condition] (yes no : Exec σ ε α)
    (state : σ) :
    (if condition then yes else no).run state =
      if condition then yes.run state else no.run state := by
  split <;> rfl

variable {first : Exec σ ε α} {next : α → Exec σ ε β} {state : σ}

theorem bind_ok {after : σ} {value : α} (ran : first.run state = (.ok value, after)) :
    (first >>= next).run state = (next value).run after := by
  rw [bind_run, ran]

theorem bind_eq_ok {final : σ} {result : β} :
    (first >>= next).run state = (.ok result, final) ↔
      ∃ value after, first.run state = (.ok value, after) ∧
        (next value).run after = (.ok result, final) := by
  rw [bind_run]
  rcases first.run state with ⟨outcome, after⟩
  cases outcome <;> simp

theorem forEach_append (body : α → Exec σ ε Unit) (first second : List α) (state : σ) :
    (forEach body (first ++ second)).run state =
      (forEach body first >>= fun _ => forEach body second).run state := by
  induction first generalizing state with
  | nil => rfl
  | cons item rest ih =>
    simp only [List.cons_append, forEach, bind_run]
    rcases (body item).run state with ⟨outcome, after⟩
    cases outcome with
    | ok value => exact ih after
    | thrown exception => rfl
    | exhausted => rfl

/-! ## What a computation ensures -/

/-- Started in `state`, a returned value satisfies `post` with the state reached, and a
thrown exception leaves a state that satisfies `raised`. -/
def Ensures (program : Exec σ ε α) (state : σ) (post : α → σ → Prop) (raised : σ → Prop) :
    Prop :=
  match program.run state with
  | (.ok value, after) => post value after
  | (.thrown _, after) => raised after
  | (.exhausted, _) => True

/-- An invariant kept however the computation ends. -/
def Keeps (invariant : σ → Prop) (program : Exec σ ε α) : Prop :=
  ∀ state, invariant state → program.Ensures state (fun _ => invariant) invariant

/-- An invariant kept by a computation that does not throw. -/
def Maintains (invariant : σ → Prop) (program : Exec σ ε α) : Prop :=
  ∀ state, invariant state → program.Ensures state (fun _ => invariant) fun _ => False

section Ensures

variable {post post' : α → σ → Prop} {raised raised' : σ → Prop} {state : σ}
variable {program first : Exec σ ε α} {invariant : σ → Prop}

theorem Ensures.intro
    (returned : ∀ value after, program.run state = (.ok value, after) → post value after)
    (threw : ∀ exception after, program.run state = (.thrown exception, after) → raised after) :
    program.Ensures state post raised := by
  unfold Ensures
  split
  · rename_i ran
    exact returned _ _ ran
  · rename_i ran
    exact threw _ _ ran
  · trivial

variable {value : α} {next : α → Exec σ ε β}
variable {after : σ} {exception : ε} {change : σ → σ} {final : β → σ → Prop} {body : Exec σ ε α}
  {handler : ε → Exec σ ε α}

theorem Ensures.of_ok (holds : program.Ensures state post raised)
    (ran : program.run state = (.ok value, after)) : post value after := by
  unfold Ensures at holds
  rw [ran] at holds
  exact holds

theorem Ensures.of_thrown (holds : program.Ensures state post raised)
    (ran : program.run state = (.thrown exception, after)) : raised after := by
  unfold Ensures at holds
  rw [ran] at holds
  exact holds

theorem Ensures.of_run (ran : program.run state = (.ok value, after)) (holds : post value after) :
    program.Ensures state post raised := by
  unfold Ensures
  rw [ran]
  exact holds

/-- What another computation ensures that runs the same way. -/
theorem Ensures.of_run_eq {other : Exec σ ε α} {start : σ}
    (same : program.run state = other.run start) (holds : other.Ensures start post raised) :
    program.Ensures state post raised := by
  unfold Ensures
  rw [same]
  exact holds

theorem Ensures.mono (holds : program.Ensures state post raised)
    (weaken : ∀ value after, post value after → post' value after)
    (weakenRaised : ∀ after, raised after → raised' after) :
    program.Ensures state post' raised' := by
  unfold Ensures at holds ⊢
  split
  · rename_i ran
    rw [ran] at holds
    exact weaken _ _ holds
  · rename_i ran
    rw [ran] at holds
    exact weakenRaised _ holds
  · trivial

theorem Ensures.and (first : program.Ensures state post raised)
    (second : program.Ensures state post' raised') :
    program.Ensures state (fun value after => post value after ∧ post' value after)
      fun after => raised after ∧ raised' after := by
  unfold Ensures at first second ⊢
  split
  · rename_i ran
    rw [ran] at first second
    exact ⟨first, second⟩
  · rename_i ran
    rw [ran] at first second
    exact ⟨first, second⟩
  · trivial

@[simp] theorem ensures_pure :
    (pure value : Exec σ ε α).Ensures state post raised ↔ post value state := Iff.rfl

@[simp] theorem ensures_throw :
    (throw exception : Exec σ ε α).Ensures state post raised ↔ raised state := Iff.rfl

@[simp] theorem ensures_exhaust : (exhaust : Exec σ ε α).Ensures state post raised ↔ True := Iff.rfl

@[simp] theorem ensures_get {post : σ → σ → Prop} :
    (get : Exec σ ε σ).Ensures state post raised ↔ post state state := Iff.rfl

@[simp] theorem ensures_modify {post : Unit → σ → Prop} :
    (modify change : Exec σ ε Unit).Ensures state post raised ↔ post () (change state) :=
  Iff.rfl

theorem ensures_reads {read : σ → Except ε α} :
    (reads read).Ensures state post raised ↔
      (∀ value, read state = .ok value → post value state) ∧
        ∀ exception, read state = .error exception → raised state := by
  unfold Ensures
  rw [reads_run]
  cases result : read state with
  | ok value => simp
  | error exception => simp

@[simp] theorem ensures_bind :
    (first >>= next).Ensures state final raised ↔
      first.Ensures state (fun value after => (next value).Ensures after final raised)
        raised := by
  unfold Ensures
  rw [bind_run]
  rcases first.run state with ⟨outcome, after⟩
  cases outcome <;> rfl

theorem ensures_get_bind {next : σ → Exec σ ε β} :
    (get >>= next).Ensures state final raised ↔ (next state).Ensures state final raised := by
  rw [ensures_bind, ensures_get]

theorem ensures_modify_bind {next : Unit → Exec σ ε β} :
    (modify change >>= next).Ensures state final raised ↔
      (next ()).Ensures (change state) final raised := by
  rw [ensures_bind, ensures_modify]

theorem ensures_tryCatch :
    (tryCatch body handler).Ensures state post raised ↔
      match body.run state with
      | (.ok value, after) => post value after
      | (.thrown exception, after) => (handler exception).Ensures after post raised
      | (.exhausted, _) => True := by
  unfold Ensures
  rw [tryCatch_run]
  rcases body.run state with ⟨outcome, after⟩
  cases outcome <;> rfl

/-- A handler that does the same for every exception starts where the body threw. -/
theorem Ensures.tryCatch (tried : body.Ensures state post raised')
    (handled : ∀ exception after, raised' after → (handler exception).Ensures after post raised) :
    (tryCatch body handler).Ensures state post raised := by
  rw [ensures_tryCatch]
  unfold Ensures at tried
  split
  · rename_i ran
    rw [ran] at tried
    exact tried
  · rename_i ran
    rw [ran] at tried
    exact handled _ _ tried
  · trivial

@[simp] theorem ensures_zoom {τ : Type} {part : σ → τ} {update : τ → σ → σ}
    {body : Exec τ ε α} :
    (zoom part update body).Ensures state post raised ↔
      body.Ensures (part state) (fun value inner => post value (update inner state))
        fun inner => raised (update inner state) := by
  unfold Ensures
  rw [zoom_run]
  rcases body.run (part state) with ⟨outcome, inner⟩
  cases outcome <;> rfl

theorem ensures_ite {condition : Prop} [Decidable condition] {second : Exec σ ε α} :
    (if condition then first else second).Ensures state post raised ↔
      (condition → first.Ensures state post raised) ∧
        (¬ condition → second.Ensures state post raised) := by
  split <;> simp_all

theorem Keeps.ensures (kept : Keeps invariant program) (start : invariant state) :
    program.Ensures state (fun _ => invariant) invariant :=
  kept state start

section Rules

variable {invariant : σ → Prop}

theorem Keeps.pure (value : α) : Keeps invariant (pure value : Exec σ ε α) :=
  fun _ => id

theorem Keeps.get : Keeps invariant (get : Exec σ ε σ) :=
  fun _ => id

theorem Keeps.throw (exception : ε) : Keeps invariant (throw exception : Exec σ ε α) :=
  fun _ => id

theorem Keeps.exhaust : Keeps invariant (exhaust : Exec σ ε α) :=
  fun _ _ => trivial

theorem Keeps.reads (read : σ → Except ε α) : Keeps invariant (reads read) :=
  fun _ kept => ensures_reads.mpr ⟨fun _ _ => kept, fun _ _ => kept⟩

theorem Keeps.ite {condition : Prop} [Decidable condition] {first second : Exec σ ε α}
    (one : condition → Keeps invariant first) (two : ¬ condition → Keeps invariant second) :
    Keeps invariant (if condition then first else second) := by
  intro start kept
  exact ensures_ite.mpr ⟨fun holds => one holds start kept, fun fails => two fails start kept⟩

theorem Keeps.tryCatch {body : Exec σ ε α} {handler : ε → Exec σ ε α}
    (tried : Keeps invariant body) (handled : ∀ exception, Keeps invariant (handler exception)) :
    Keeps invariant (tryCatch body handler) :=
  fun start kept => (tried start kept).tryCatch fun exception after => handled exception after

end Rules

theorem Keeps.bind (one : Keeps invariant first) (two : ∀ value, Keeps invariant (next value)) :
    Keeps invariant (first >>= next) := by
  intro start kept
  rw [ensures_bind]
  exact (one start kept).mono (fun value after => two value after) fun _ => id

theorem Maintains.bind (one : Maintains invariant first)
    (two : ∀ value, Maintains invariant (next value)) : Maintains invariant (first >>= next) := by
  intro start kept
  rw [ensures_bind]
  exact (one start kept).mono (fun value after => two value after) fun _ => id

theorem Keeps.forEach {body : α → Exec σ ε Unit} {items : List α}
    (step : ∀ item ∈ items, Keeps invariant (body item)) :
    Keeps invariant (Exec.forEach body items) := by
  induction items with
  | nil => exact fun _ => id
  | cons item rest ih =>
    exact (step item (by simp)).bind fun _ =>
      ih fun other member => step other (by simp [member])

end Ensures

end Exec
