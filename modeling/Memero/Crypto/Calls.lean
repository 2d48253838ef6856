import Memero.Crypto.Ringct

/-!
# Library calls that fail and library calls that do not

Rules for `PointM`: a computation all of whose calls succeed returns one value whatever
uninitialised memory holds, and a computation with a failing call counts it. The count never
goes down, so a failure anywhere in a computation shows in the end.
-/

namespace Memero

open Nat

namespace PointM

variable {α β : Type}

instance : LawfulMonad PointM :=
  .mk' PointM (fun _ => rfl) (fun _ _ => rfl) fun _ _ _ => rfl

/-- Every call succeeds, and the result is `value`. -/
def Returns (program : PointM α) (value : α) : Prop :=
  ∀ uninit failures, program.run uninit failures = (value, failures)

/-- The count of failed calls does not go down. -/
def Counts (program : PointM α) : Prop :=
  ∀ uninit failures, failures ≤ (program.run uninit failures).2

/-- Whatever memory holds, the result satisfies `good`. -/
def Yields (program : PointM α) (good : α → Prop) : Prop :=
  ∀ uninit failures, good (program.run uninit failures).1

/-- Some call fails. -/
def Fails (program : PointM α) : Prop :=
  ∀ uninit failures, failures < (program.run uninit failures).2

/-! ## No call fails -/

namespace Returns

theorem pure (value : α) : Returns (Pure.pure value) value :=
  fun _ _ => rfl

variable {program : PointM α}

theorem bind {next : α → PointM β} {middle : α} {value : β} (first : program.Returns middle)
    (second : (next middle).Returns value) : (program >>= next).Returns value := by
  intro uninit failures
  change (next (program.run uninit failures).1).run uninit (program.run uninit failures).2 = _
  rw [first uninit failures]
  exact second uninit failures

theorem ofResult {result : Option EcPoint} {point : EcPoint} (found : result = some point) :
    (PointM.ofResult result).Returns point := by
  subst found
  exact fun _ _ => rfl

theorem mapM {items : List α} {call : α → PointM β} {result : α → β}
    (each : ∀ item ∈ items, (call item).Returns (result item)) :
    (items.mapM call).Returns (items.map result) := by
  induction items with
  | nil => exact .pure []
  | cons item rest ih =>
    rw [List.mapM_cons]
    refine .bind (each item List.mem_cons_self) (.bind (ih fun other member => ?_) (.pure _))
    exact each other (List.mem_cons_of_mem _ member)

variable {value : α}

theorem unique {other : α} (first : program.Returns value) (second : program.Returns other) :
    value = other :=
  congrArg Prod.fst ((first (fun _ => 0) 0).symm.trans (second (fun _ => 0) 0))

theorem value_eq (returns : program.Returns value) (uninit : Uninit) :
    program.value uninit = value := by
  rw [PointM.value, returns]

theorem failures_eq (returns : program.Returns value) (uninit : Uninit) :
    program.failures uninit = 0 := by
  rw [PointM.failures, returns]

end Returns

/-! ## Counting failures -/

namespace Counts

theorem pure (value : α) : Counts (Pure.pure value) :=
  fun _ failures => le_refl failures

theorem bind {program : PointM α} {next : α → PointM β} (first : program.Counts)
    (second : ∀ middle, (next middle).Counts) : (program >>= next).Counts :=
  fun uninit failures => le_trans (first uninit failures) (second _ uninit _)

theorem ite {condition : Prop} [Decidable condition] {first second : PointM α}
    (yes : first.Counts) (no : second.Counts) :
    (if condition then first else second).Counts := by
  split
  · exact yes
  · exact no

theorem ofResult (result : Option EcPoint) : (PointM.ofResult result).Counts := by
  intro uninit failures
  cases result with
  | none => exact le_succ failures
  | some point => exact le_refl failures

end Counts

variable {program : PointM α}

theorem Returns.yields_iff {value : α} (returns : program.Returns value) {good : α → Prop} :
    program.Yields good ↔ good value := by
  constructor
  · intro yields
    have holds := yields (fun _ => 0) 0
    rwa [returns] at holds
  · intro holds uninit failures
    rwa [returns]

theorem Yields.bind {next : α → PointM β} {good : β → Prop}
    (second : ∀ middle, (next middle).Yields good) : (program >>= next).Yields good :=
  fun uninit _ => second _ uninit _

namespace Fails

theorem ofResult {result : Option EcPoint} (failed : result = none) :
    (PointM.ofResult result).Fails := by
  subst failed
  exact fun _ failures => lt_succ_self failures

variable {program : PointM α} {next : α → PointM β}

/-- A failure is still counted after what follows it. -/
theorem bind (first : program.Fails) (second : ∀ middle, (next middle).Counts) :
    (program >>= next).Fails :=
  fun uninit failures => lt_of_lt_of_le (first uninit failures) (second _ uninit _)

/-- What follows fails whatever is computed before it. -/
theorem after (first : program.Counts) (second : ∀ middle, (next middle).Fails) :
    (program >>= next).Fails :=
  fun uninit failures => lt_of_le_of_lt (first uninit failures) (second _ uninit _)

/-- What follows fails on every value that can be computed before it. -/
theorem after_yields {good : α → Prop} (first : program.Counts) (values : program.Yields good)
    (second : ∀ middle, good middle → (next middle).Fails) : (program >>= next).Fails :=
  fun uninit failures =>
    lt_of_le_of_lt (first uninit failures) (second _ (values uninit failures) uninit _)

/-- What follows fails on the value that is computed before it. -/
theorem after_returns {middle : α} (first : program.Returns middle) (second : (next middle).Fails) :
    (program >>= next).Fails := by
  intro uninit failures
  change failures < ((next (program.run uninit failures).1).run uninit
    (program.run uninit failures).2).2
  rw [first uninit failures]
  exact second uninit failures

theorem failures_ne_zero (fails : program.Fails) (uninit : Uninit) : program.failures uninit ≠ 0 :=
  ne_of_gt (fails uninit 0)

end Fails

/-! ## One value in all memory -/

/-- The result is `value` if all uninitialised memory holds `memory`. -/
def Reads (memory : EcPoint) (program : PointM α) (value : α) : Prop :=
  ∀ failures, (program.run (fun _ => memory) failures).1 = value

namespace Reads

variable {memory : EcPoint}
variable {program : PointM α}

theorem ofReturns {value : α} (returns : program.Returns value) : program.Reads memory value := by
  intro failures
  rw [returns]

theorem bind {next : α → PointM β} {middle : α} {value : β} (first : program.Reads memory middle)
    (second : (next middle).Reads memory value) : (program >>= next).Reads memory value := by
  intro failures
  change ((next (program.run _ failures).1).run _ (program.run _ failures).2).1 = _
  rw [first failures]
  exact second _

theorem ofResult_none : (PointM.ofResult none).Reads memory memory :=
  fun _ => rfl

end Reads

end PointM

/-! ## Computations that may throw -/

/-- A computation on points that may throw. -/
abbrev CheckedM : Type → Type :=
  OptionT PointM

namespace CheckedM

variable {α β : Type}

/-- `LOG_ERROR_AND_THROW_UNLESS`. -/
def require (condition : Prop) [Decidable condition] : CheckedM Unit :=
  if condition then pure () else failure

/-- Nothing is thrown, every call succeeds, and the result is `value`. -/
def Gives (program : CheckedM α) (value : α) : Prop :=
  program.run.Returns (some value)

namespace Gives

theorem pure (value : α) : Gives (Pure.pure value) value :=
  PointM.Returns.pure _

theorem bind {program : CheckedM α} {next : α → CheckedM β} {middle : α} {value : β}
    (first : program.Gives middle) (second : (next middle).Gives value) :
    (program >>= next).Gives value := by
  unfold Gives
  rw [OptionT.run_bind]
  exact PointM.Returns.bind first second

theorem lift {program : PointM α} {value : α} (returns : program.Returns value) :
    Gives (OptionT.lift program) value := by
  exact returns.bind (.pure _)

theorem require {condition : Prop} [Decidable condition] (holds : condition) :
    (CheckedM.require condition).Gives () := by
  rw [CheckedM.require, if_pos holds]
  exact .pure ()

end Gives

/-- Whatever memory holds, a result satisfies `good`. -/
def Yields (program : CheckedM α) (good : α → Prop) : Prop :=
  program.run.Yields fun result => ∀ value, result = some value → good value

namespace Yields

theorem trivial (program : CheckedM α) : program.Yields fun _ => True :=
  fun _ _ _ _ => True.intro

variable {good : α → Prop}
variable {program : CheckedM α} {value : α}

theorem ofGives (gives : program.Gives value) (holds : good value) : program.Yields good := by
  intro uninit failures other same
  rw [gives] at same
  cases same
  exact holds

theorem pure (holds : good value) : Yields (Pure.pure value) good :=
  .ofGives (.pure value) holds

theorem failure : CheckedM.Yields Alternative.failure good := by
  intro uninit failures value same
  cases same

theorem require (condition : Prop) [Decidable condition] :
    (CheckedM.require condition).Yields fun _ => condition := by
  rw [CheckedM.require]
  split
  · rename_i holds
    exact .pure holds
  · exact .failure

theorem bind {next : α → CheckedM β} {later : β → Prop} (first : program.Yields good)
    (second : ∀ middle, good middle → (next middle).Yields later) :
    (program >>= next).Yields later := by
  intro uninit failures value same
  rw [OptionT.run_bind] at same
  change ((Option.elim (program.run.run uninit failures).1 (Pure.pure none) fun middle =>
    (next middle).run).run uninit (program.run.run uninit failures).2).1 = some value at same
  cases found : (program.run.run uninit failures).1 with
  | none =>
    rw [found] at same
    cases same
  | some middle =>
    rw [found] at same
    exact second middle (first uninit failures middle found) uninit _ value same

end Yields

/-- Nothing is thrown, and the result is `value` if all uninitialised memory holds `memory`. -/
def Reads (memory : EcPoint) (program : CheckedM α) (value : α) : Prop :=
  program.run.Reads memory (some value)

namespace Reads

variable {memory : EcPoint}
variable {program : CheckedM α} {value : α}

theorem ofGives (gives : program.Gives value) : program.Reads memory value :=
  PointM.Reads.ofReturns gives

theorem bind {next : α → CheckedM β} {middle : α} {value : β} (first : program.Reads memory middle)
    (second : (next middle).Reads memory value) : (program >>= next).Reads memory value := by
  unfold Reads
  rw [OptionT.run_bind]
  exact PointM.Reads.bind first second

theorem lift {program : PointM α} (reads : program.Reads memory value) :
    Reads memory (OptionT.lift program) value := by
  exact reads.bind (.ofReturns (.pure _))

end Reads

end CheckedM

/-! ## The program's functions count their failures -/

namespace Sodium

variable (sodium : Sodium)

theorem mult_counts (a : EcScalar) (X : EcPoint) : (sodium.mult a X).Counts :=
  .ite (.pure _) (.ofResult _)

theorem sum_counts (points : List EcPoint) : (sodium.sum points).Counts := by
  unfold sum
  generalize identity = start
  induction points generalizing start with
  | nil => exact .pure start
  | cons point rest ih =>
    exact .bind (.ofResult _) ih

end Sodium

namespace Env

variable (env : Env)
variable (sig : Clsag) (s : EcScalar)

theorem clsagL_counts (decoy : OutputPublicData) (pseudoInputCommit : EcPoint) (cP cC : EcScalar) :
    (env.clsagL s decoy pseudoInputCommit cP cC).Counts :=
  .bind (.ofResult _) fun _ => .bind (env.mult_counts _ _) fun _ =>
    .bind (env.mult_counts _ _) fun _ => env.sum_counts _

theorem clsagR_counts (decoy : OutputPublicData) (sig : Clsag) (cP cC : EcScalar) :
    (env.clsagR s decoy sig cP cC).Counts :=
  .bind (env.mult_counts _ _) fun _ => .bind (env.mult_counts _ _) fun _ =>
    .bind (env.mult_counts _ _) fun _ => env.sum_counts _

section

variable (decoys : List OutputPublicData) (pseudoInputCommit : EcPoint) (message : Hash)
  (muP muC c : EcScalar)

theorem clsagRound_counts (s : EcScalar) (decoy : OutputPublicData) :
    (env.clsagRound sig decoys pseudoInputCommit message muP muC c s decoy).Counts :=
  .bind (env.clsagL_counts _ _ _ _ _) fun _ => .bind (env.clsagR_counts _ _ _ _ _) fun _ =>
    .pure _

/-- A challenge is a hash, also one computed from points that were never written. -/
theorem clsagRound_yields (s : EcScalar) (decoy : OutputPublicData) :
    (env.clsagRound sig decoys pseudoInputCommit message muP muC c s decoy).Yields
      fun next => ∃ keys, next = env.hashDataVToScalar keys :=
  .bind fun _ => .bind fun _ => fun _ _ => ⟨_, rfl⟩

theorem clsagRounds_counts (items : List (EcScalar × OutputPublicData)) :
    (env.clsagRounds sig decoys pseudoInputCommit message muP muC c items).Counts := by
  induction items generalizing c with
  | nil => exact .pure _
  | cons item rest ih =>
    exact .bind (env.clsagRound_counts _ _ _ _ _ _ _ _ _) fun next => .ite (.pure _) (ih next)

end

theorem hashClsagDataWithKey_counts (pseudoInputCommit : EcPoint) (decoys : List OutputPublicData)
    (hashKey : String) : (env.hashClsagDataWithKey sig pseudoInputCommit decoys hashKey).Counts :=
  .bind (env.mult_counts _ _) fun _ => .pure _

theorem hashClsagDataWithKey_yields (pseudoInputCommit : EcPoint) (decoys : List OutputPublicData)
    (hashKey : String) :
    (env.hashClsagDataWithKey sig pseudoInputCommit decoys hashKey).Yields
      fun scalar => ∃ keys, scalar = env.hashDataVToScalar keys :=
  .bind fun _ => fun _ _ => ⟨_, rfl⟩

theorem verifyClsagSignature_counts (message : Hash) (sig : Clsag)
    (decoys : List OutputPublicData) (pseudoInputCommit : EcPoint) :
    (env.verifyClsagSignature message sig decoys pseudoInputCommit).Counts :=
  .ite (.pure _) <| .ite (.pure _) <| .bind (env.hashClsagDataWithKey_counts _ _ _ _) fun _ =>
      .bind (env.hashClsagDataWithKey_counts _ _ _ _) fun _ =>
        .bind (env.clsagRounds_counts _ _ _ _ _ _ _ _) fun _ => .pure _

end Env

end Memero
