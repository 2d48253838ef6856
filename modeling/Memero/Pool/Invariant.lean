import Memero.Pool.Transactions

/-!
# What the pool holds

The pool stores and caches only transactions it was given, under the ids it was given for
them, with the fee and the weight of the stored transaction. The statements are about any
property `good` of an id and a transaction: if every transaction given to `add_tx` has it,
then everything the pool holds and everything `take_tx` returns has it.
-/

namespace Memero

open Table Pool

open Exec

/-- The recorded totals of a row are those of its transaction. -/
structure PoolTx.Faithful (env : Env) (row : PoolTx) : Prop where
  fee : row.details.fee = row.blob.ringct.fee
  weight : row.details.weight = env.getTransactionWeight row.blob
  complete : row.details.pruned = false

/-- Every stored and every cached transaction is good for its id. -/
structure Pool.Holds (env : Env) (good : Hash → Transaction → Prop) (pool : Pool) : Prop where
  rows : ∀ row ∈ pool.txpool, good row.1 row.2.blob ∧ row.2.Faithful env
  cached : ∀ row ∈ pool.parsedTxCache, good row.1 row.2

/-- What `add_tx` is called with. -/
structure AddTxInput.Faithful (env : Env) (good : Hash → Transaction → Prop)
    (input : AddTxInput) : Prop where
  same : input.blob = input.tx
  modern : input.tx.version ≠ 1
  weight : input.txWeight = env.getTransactionWeight input.blob
  accepted : good input.id input.tx

/-- What `take_tx` returns for an id. -/
structure TakenTx.Faithful (env : Env) (good : Hash → Transaction → Prop) (id : Hash)
    (taken : TakenTx) : Prop where
  tx : good id taken.tx
  blob : good id taken.blob
  fee : taken.fee = taken.blob.ringct.fee
  weight : taken.txWeight = env.getTransactionWeight taken.blob
  complete : taken.pruned = false

variable {env : Env} {good : Hash → Transaction → Prop}

namespace Pool.Holds

theorem empty : empty.Holds env good :=
  { rows := by simp [Pool.empty], cached := by simp [Pool.empty] }

variable {before after : Pool}

/-- Only the rows and the cache matter. -/
theorem of_subset (holds : before.Holds env good) (rows : ∀ row ∈ after.txpool, row ∈ before.txpool)
    (cached : ∀ row ∈ after.parsedTxCache, row ∈ before.parsedTxCache) : after.Holds env good :=
  { rows := fun row member => holds.rows row (rows row member)
    cached := fun row member => holds.cached row (cached row member) }

/-- An aborted batch brings the old rows back. -/
theorem restore (holds : before.Holds env good) (later : after.Holds env good) (inBatch : Bool) :
    (if inBatch then after else { after with txpool := before.txpool }).Holds env good := by
  cases inBatch with
  | true => exact later
  | false => exact { rows := holds.rows, cached := later.cached }

end Pool.Holds

/-! ## Locked transactions -/

variable {inBatch : Bool} {input : AddTxInput}
variable {pool : Pool}

theorem ensures_lockedTxn {α : Type} {body : PoolM (α × Bool)} (result : α → Prop)
    (start : pool.Holds env good)
    (ran : body.Ensures pool (fun value after => after.Holds env good ∧ result value.1) fun _ => False) :
    (lockedTxn inBatch body).Ensures pool
      (fun value after => after.Holds env good ∧ result value) fun _ => False := by
  unfold lockedTxn
  rw [ensures_get_bind, ensures_bind]
  refine (ran.tryCatch fun _ _ => False.elim).mono ?_ fun _ => id
  intro value after reached
  split
  · exact reached
  · rw [ensures_modify_bind]
    exact ⟨start.restore reached.1 inBatch, reached.2⟩

/-! ## Key images -/

/-- A change of the key image sets only. -/
theorem Pool.Holds.withSpenders (holds : pool.Holds env good) (sets : Table KeyImage (List Hash)) :
    ({ pool with spentOutputKeyImages := sets } : Pool).Holds env good :=
  { rows := holds.rows, cached := holds.cached }

theorem insertOutputKeyImages_maintains (txid : Hash) (txRelay : RelayMethod) (inputs : List TxIn) :
    Maintains (Holds env good) (insertOutputKeyImages txid txRelay inputs) := by
  induction inputs with
  | nil => exact fun _ => id
  | cons input rest ih =>
    intro pool holds
    cases input with
    | gen height => exact holds
    | fromKey input =>
      simp only [insertOutputKeyImages, ensures_bind,
        ensures_ite]
      have looked := holds.withSpenders (pool.setSpenders input.outputKeyImage
        (pool.spenders input.outputKeyImage)).spentOutputKeyImages
      exact ⟨fun _ => looked, fun _ => ⟨fun _ => ⟨fun _ => looked, fun _ => ih _ looked⟩,
        fun _ => ih _ (looked.withSpenders _)⟩⟩

theorem removeTransactionKeyimages_maintains (txid : Hash) (inputs : List TxIn) :
    Maintains (Holds env good) (removeTransactionKeyimages txid inputs) := by
  induction inputs with
  | nil => exact fun _ => id
  | cons input rest ih =>
    intro pool holds
    cases input with
    | gen height => exact holds
    | fromKey input =>
      simp only [removeTransactionKeyimages, ensures_bind, ensures_get]
      cases pool.spentOutputKeyImages.find input.outputKeyImage with
      | none => exact holds
      | some ids =>
        simp only [ensures_ite]
        exact ⟨fun _ => ih _ (holds.withSpenders _), fun _ => holds⟩

/-! ## Pruning -/

/-- Removing a row, whatever happens to the totals beside the rows. -/
theorem Pool.Holds.removeRow (holds : pool.Holds env good) (txid : Hash) (weight : Nat) :
    ({ pool with txpool := pool.txpool.remove txid, txpoolWeight := weight } : Pool).Holds
      env good :=
  holds.of_subset (fun _ => mem_of_mem_remove) fun _ => id

theorem pruneEntries_maintains (bytes : Nat) (entries : List SortedEntry) :
    Maintains (Holds env good) (pruneEntries bytes entries) := by
  induction entries with
  | nil => exact fun _ => id
  | cons entry rest ih =>
    intro pool holds
    simp only [pruneEntries, ensures_bind, ensures_ite]
    refine ⟨fun _ => holds, fun _ => ?_⟩
    cases pool.txpool.find entry.id with
    | none => exact holds
    | some row =>
      simp only [ensures_ite, ensures_bind]
      refine ⟨fun _ => ih pool holds, fun _ => ?_⟩
      refine (removeTransactionKeyimages_maintains _ _ _ (holds.removeRow _ _)).mono ?_ fun _ => id
      intro removed after kept
      exact ih _ (kept.of_subset (fun _ => id) fun _ => id)

theorem prune_maintains (inBatch : Bool) (bytes : Nat) :
    Maintains (Holds env good) (prune env inBatch bytes) := by
  intro pool holds
  refine (ensures_lockedTxn (fun _ => True) holds ?_).mono (fun _ _ => And.left) fun _ => id
  simp only [ensures_bind, and_true]
  exact pruneEntries_maintains _ _ pool holds

/-! ## Adding -/

theorem AddTxInput.Faithful.row (faithful : input.Faithful env good) {fee : Nat}
    (computed : addedFee input.tx = some fee) (used : Option (Nat × Hash))
    (doubleSpendSeen : Bool) :
    ({ details := input.newMeta fee used doubleSpendSeen, blob := input.blob } :
      PoolTx).Faithful env where
  fee := by
    rw [addedFee, if_neg faithful.modern] at computed
    cases computed
    rw [faithful.same]
    rfl
  weight := faithful.weight
  complete := rfl

variable {inputsAccepted : Bool} {details : TxpoolTxMeta}

section

variable (faithful : input.Faithful env good)
  (row : ({ details := details, blob := input.blob } : PoolTx).Faithful env)
include faithful row

theorem storeTx_maintains :
    Maintains (Holds env good) (storeTx env inBatch input details inputsAccepted) := by
  intro pool holds
  have cachedHolds : (if input.txRelay = .block ∧ ¬ pool.parsedTxCache.has input.id then
      { pool with parsedTxCache := pool.parsedTxCache.put input.id input.tx }
      else pool).Holds env good := by
    split
    · refine { rows := holds.rows, cached := ?_ }
      intro entry member
      rcases mem_put.mp member with rfl | old
      · exact faithful.accepted
      · exact holds.cached entry old
    · exact holds
  refine (ensures_lockedTxn (fun _ => True) cachedHolds ?_).mono (fun _ _ => And.left) fun _ => id
  simp only [ensures_bind, and_true]
  have clearedHolds : ∀ {before : Pool}, before.Holds env good →
      (if inputsAccepted then { before with txpool := before.txpool.remove input.id }
        else before).Holds env good := by
    intro before holds
    split
    · exact holds.of_subset (fun _ => mem_of_mem_remove) fun _ => id
    · exact holds
  refine (insertOutputKeyImages_maintains _ _ _ _ (clearedHolds cachedHolds)).mono ?_ fun _ => id
  intro inserted after kept
  simp only [ensures_ite]
  refine ⟨fun _ => { rows := ?_, cached := kept.cached }, fun _ => kept⟩
  intro entry member
  rcases mem_put.mp member with rfl | old
  · exact ⟨faithful.same ▸ faithful.accepted, row⟩
  · exact kept.rows entry (mem_of_mem_remove old)

theorem finishAddTx_maintains :
    Maintains (Holds env good) (finishAddTx env inBatch input details inputsAccepted) := by
  refine (storeTx_maintains faithful row).bind fun stored => ?_
  intro pool holds
  simp only [ensures_ite, ensures_bind]
  refine ⟨fun _ => ?_, fun _ => holds⟩
  exact prune_maintains inBatch _ _ (holds.of_subset (fun _ => id) fun _ => id)

end

theorem markDoubleSpend_maintains (tx : Transaction) :
    Maintains (Holds env good) (markDoubleSpend tx) := by
  intro pool holds
  refine { rows := ?_, cached := holds.cached }
  intro row member
  obtain ⟨old, present, rfl⟩ := List.mem_map.mp member
  have faithful := (holds.rows old present).2
  split
  · exact ⟨(holds.rows old present).1, { faithful with }⟩
  · exact holds.rows old present

/-- The checks of `add_tx` before the one of the inputs. -/
def Pool.passesChecks (env : Env) (pool : Pool) (input : AddTxInput) : Bool :=
  let txFromBlock := decide (input.txRelay = .block)
  decide (input.tx.version ≠ 0) &&
    (txFromBlock || decide (input.id ∉ pool.timedOutTransactions)) &&
    checkInputsTypesSupported input.tx &&
    (addedFee input.tx).any (fun fee => txFromBlock || checkFee input.txWeight fee) &&
    decide (input.txWeight ≤ transactionWeightLimit) &&
    (txFromBlock || !pool.haveTxKeyimgesAsSpent input.tx input.id) &&
    env.checkRingctOutputs input.tx

/-- The metadata `add_tx` stores, if the check of the inputs returned `used`. -/
def Pool.addedMeta (pool : Pool) (input : AddTxInput) (fee : Nat) (used : Option (Nat × Hash)) :
    TxpoolTxMeta :=
  input.newMeta fee used (used.isNone && pool.haveTxKeyimgesAsSpent input.tx input.id)

section AddTx

variable {db : ChainTables} {scanTable : ScanTable} {inBatch : Bool} {input : AddTxInput}
  {pool : Pool}

/-- A transaction that passes the checks is stored, unless its inputs are refused and it does
not come from a block. -/
theorem addTx_run_of_passes {fee : Nat} (computed : addedFee input.tx = some fee)
    (passes : pool.passesChecks env input = true) :
    (addTx env db scanTable inBatch input).run pool =
      (do
        let used ← reads fun _ =>
          db.checkRingctInputsWithId env scanTable input.uninit input.tx
        if used = none ∧ input.txRelay ≠ RelayMethod.block then
          return false
        else
          finishAddTx env inBatch input (pool.addedMeta input fee used) used.isSome).run pool := by
  simp only [passesChecks, Bool.and_eq_true, computed, decide_eq_true_eq,
    Bool.or_eq_true, Bool.not_eq_true'] at passes
  obtain ⟨⟨⟨⟨⟨⟨version, timed⟩, supported⟩, paid⟩, light⟩, unspent⟩, outputs⟩ := passes
  have unspentHere : ¬ (¬ decide (input.txRelay = .block) = true ∧
      pool.haveTxKeyimgesAsSpent input.tx input.id = true) := by
    rintro ⟨notBlock, spent⟩
    have free := unspent.resolve_left (by simpa using notBlock)
    exact Bool.false_ne_true (free.symm.trans spent)
  rw [addTx, get_bind_run, if_neg version,
    if_neg (by simpa [or_iff_not_imp_left] using timed), if_neg (not_not.mpr supported), computed]
  dsimp only
  rw [if_neg (by simpa [or_iff_not_imp_left] using paid), if_neg (Nat.not_lt.mpr light),
    if_neg unspentHere, if_neg (not_not.mpr outputs), bind_run, bind_run]
  rcases (reads fun _ : Pool => db.checkRingctInputsWithId env scanTable input.uninit
    input.tx).run pool with ⟨outcome, after⟩
  rcases outcome with used | exception | exhausted
  · cases used with
    | none => by_cases block : input.txRelay = .block <;> simp [addedMeta]
    | some used => simp [addedMeta]
  all_goals rfl

/-- What `add_tx` ensures, by what it may do: refuse, refuse and mark the transactions that
spend the same key images, fail with the check of the inputs, or store. -/
theorem addTx_rule {post : Bool → Pool → Prop} {thrown : Pool → Prop}
    (refused : post false pool)
    (marked : (markDoubleSpend input.tx).Ensures pool (fun _ => post false) thrown)
    (failed : ∀ exception,
      db.checkRingctInputsWithId env scanTable input.uninit input.tx = .error exception →
        thrown pool)
    (stores : ∀ fee used, addedFee input.tx = some fee → pool.passesChecks env input = true →
      db.checkRingctInputsWithId env scanTable input.uninit input.tx = .ok used →
      (used = none → input.txRelay = .block) →
        (finishAddTx env inBatch input (pool.addedMeta input fee used) used.isSome).Ensures pool
          post thrown) :
    (addTx env db scanTable inBatch input).Ensures pool post thrown := by
  simp only [addTx, ensures_bind, ensures_ite, decide_eq_true_eq]
  refine ⟨fun _ => refused, fun version => ⟨fun _ => refused, fun timed =>
    ⟨fun _ => refused, fun supported => ?_⟩⟩⟩
  cases computed : addedFee input.tx with
  | none => exact refused
  | some fee =>
    simp only [ensures_ite, ensures_bind]
    refine ⟨fun _ => refused, fun paid => ⟨fun _ => refused, fun light =>
      ⟨fun _ => marked, fun unspent => ⟨fun _ => refused, fun outputs => ?_⟩⟩⟩⟩
    have passes : pool.passesChecks env input = true := by
      simp only [passesChecks, computed, Option.any_some, Bool.and_eq_true,
        Bool.or_eq_true, decide_eq_true_eq, Bool.not_eq_true']
      rw [not_and_or, not_not] at timed paid unspent
      exact ⟨⟨⟨⟨⟨⟨version, timed⟩, not_not.mp supported⟩, paid.imp_right not_not.mp⟩,
        Nat.not_lt.mp light⟩, unspent.imp_right (Bool.not_eq_true _).mp⟩, not_not.mp outputs⟩
    rw [ensures_reads]
    refine ⟨fun used checked => ?_, failed⟩
    have stored := stores fee used computed passes checked
    cases used with
    | none =>
      rw [ensures_ite]
      exact ⟨fun block => stored fun _ => block, fun _ => refused⟩
    | some block => exact stored (by simp)

section

variable (passes : pool.passesChecks env input = true)
include passes

theorem Pool.passesChecks_version : input.tx.version ≠ 0 := by
  simp only [passesChecks, Bool.and_eq_true, decide_eq_true_eq] at passes
  exact passes.1.1.1.1.1.1

theorem Pool.passesChecks_unspent (notBlock : input.txRelay ≠ .block) :
    pool.haveTxKeyimgesAsSpent input.tx input.id = false := by
  simp only [passesChecks, Bool.and_eq_true] at passes
  simpa [notBlock] using passes.1.2

theorem Pool.passesChecks_outputs : env.checkRingctOutputs input.tx = true := by
  simp only [passesChecks, Bool.and_eq_true] at passes
  exact passes.2

end

/-- The inputs of a stored transaction were accepted, or it comes from a block. -/
theorem block_or_accepted {used : Option (Nat × Hash)}
    (checked : db.checkRingctInputsWithId env scanTable input.uninit input.tx = .ok used)
    (stored : used = none → input.txRelay = .block) :
    input.txRelay = .block ∨ ∃ used,
      db.checkRingctInputsWithId env scanTable input.uninit input.tx = .ok (some used) := by
  cases used with
  | none => exact .inl (stored rfl)
  | some block => exact .inr ⟨block, checked⟩

end AddTx

/-- `add_tx` keeps what the pool holds good, if it is given a good transaction. A transaction
whose outputs it refuses does not matter, nor does one whose inputs it refuses, unless it
comes from a block. It throws only what the check of the inputs throws. -/
theorem addTx_ensures {db : ChainTables} {scanTable : ScanTable}
    (given : env.checkRingctOutputs input.tx = true → input.txRelay = .block ∨ (∃ used, db.checkRingctInputsWithId env scanTable input.uninit input.tx = .ok (some used)) → input.Faithful env good)
    (holds : pool.Holds env good) :
    (addTx env db scanTable inBatch input).Ensures pool (fun _ => Holds env good)
      fun after => after.Holds env good ∧ ∃ exception,
        db.checkRingctInputsWithId env scanTable input.uninit input.tx = .error exception := by
  apply addTx_rule holds
  case marked =>
    exact (markDoubleSpend_maintains _ pool holds).mono (fun _ _ => id) fun _ => False.elim
  case failed => exact fun exception failed => ⟨holds, exception, failed⟩
  case stores =>
    intro fee used computed passes checked stored
    have faithful := given (passesChecks_outputs passes) (block_or_accepted checked stored)
    exact (finishAddTx_maintains faithful (faithful.row computed used _) pool holds).mono
      (fun _ _ => id) fun _ => False.elim

/-! ## Taking and removing -/

theorem takeTx_ensures {txid : Hash} (holds : pool.Holds env good) :
    (takeTx inBatch txid).Ensures pool
      (fun taken after => after.Holds env good ∧
        ∀ result, taken = some result → result.Faithful env good txid)
      fun _ => False := by
  unfold takeTx
  rw [ensures_bind]
  refine (ensures_lockedTxn (fun taken => ∀ result, taken = some result →
    result.Faithful env good txid) holds ?_).mono ?_ fun _ => id
  · rw [ensures_get_bind]
    cases found : pool.txpool.find txid with
    | none => exact ⟨holds, fun _ absurd => by cases absurd⟩
    | some row =>
      have stored := holds.rows _ (mem_of_find found)
      simp only [ensures_bind]
      refine (removeTransactionKeyimages_maintains _ _ _ (holds.removeRow _ _)).mono ?_ fun _ => id
      intro removed after kept
      refine ⟨kept, ?_⟩
      rintro result taken
      cases taken
      refine
        { tx := ?_
          blob := stored.1
          fee := stored.2.fee
          weight := stored.2.weight
          complete := stored.2.complete }
      cases cached : pool.parsedTxCache.find txid with
      | none => exact stored.1
      | some tx => exact holds.cached _ (mem_of_find cached)
  · intro taken after reached
    cases taken with
    | none => exact reached
    | some result => exact ⟨reached.1.of_subset (fun _ => id) fun _ => id, reached.2⟩

theorem removeStuck_maintains (stuck : List (Hash × PoolTx)) :
    Maintains (Holds env good) (removeStuck stuck) := by
  induction stuck with
  | nil => exact fun _ => id
  | cons row rest ih =>
    intro pool holds
    simp only [removeStuck, ensures_bind]
    exact (removeTransactionKeyimages_maintains _ _ _ (holds.removeRow _ _)).mono
      (fun _ after kept => ih after kept) fun _ => id

theorem removeStuckTransactions_maintains (now : Nat) :
    Maintains (Holds env good) (removeStuckTransactions now) := by
  intro pool holds
  exact removeStuck_maintains _ _ (holds.of_subset (fun _ => id) fun _ => id)

theorem setRelayed_maintains (hashes : List Hash) (method : RelayMethod) (now : Nat) :
    Maintains (Holds env good) (setRelayed hashes method now) := by
  intro pool holds
  refine { rows := ?_, cached := holds.cached }
  intro row member
  obtain ⟨old, present, rfl⟩ := List.mem_map.mp member
  have faithful := (holds.rows old present).2
  split
  · exact ⟨(holds.rows old present).1, { faithful with }⟩
  · exact holds.rows old present

theorem onBlockchainChange_maintains : Maintains (Holds env good) onBlockchainChange := by
  intro pool holds
  exact { rows := holds.rows, cached := by simp }

end Memero
