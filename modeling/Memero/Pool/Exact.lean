import Memero.Pool.Invariant
import Mathlib.Data.List.TakeWhile

/-!
# The indexes of the pool

Beside the rows of the tables, the pool keeps their total weight, their order by fee and time,
and the ids that spend each key image. `Describes` says that these three are what a list of
rows determines. The operations add and remove one row at a time, so each of them is described
by what it does to the list of rows.
-/

namespace Memero

open List Table Prod Word Pool

open Exec

/-- A row spends a key image. -/
def Spends (rows : Table Hash PoolTx) (image : KeyImage) (id : Hash) : Prop :=
  ∃ row, (id, row) ∈ rows ∧ image ∈ row.blob.keyImages

/-- The total weight and the key images are those of `rows`. -/
structure Pool.Tallies (rows : Table Hash PoolTx) (pool : Pool) : Prop where
  weight : pool.txpoolWeight = Word.wrap 64 (rows.map (·.2.details.weight)).sum
  index : pool.spentOutputKeyImages.Indexes (Spends rows)

/-- The sorted container has one entry for each of `rows`. -/
def Pool.Sorts (rows : Table Hash PoolTx) (pool : Pool) : Prop :=
  (pool.txsByFeeAndReceiveTime.map (·.id)).Perm (rows.map Prod.fst)

/-- The indexes are those of `rows`. -/
structure Pool.Describes (rows : Table Hash PoolTx) (pool : Pool) : Prop where
  tallies : pool.Tallies rows
  sorts : pool.Sorts rows

/-- What the pool needs of the transactions it is given: an id stands for one transaction, and
the inputs of a transaction have distinct key images. -/
structure Identifies (good : Hash → Transaction → Prop) : Prop where
  unique : ∀ {id : Hash} {tx other : Transaction}, good id tx → good id other → other = tx
  supported : ∀ {id : Hash} {tx : Transaction}, good id tx → checkInputsTypesSupported tx = true
  distinct : ∀ {id : Hash} {tx : Transaction}, good id tx → tx.keyImages.Nodup

/-- A pool whose weight and key images are those of its rows. -/
structure Pool.Counted (env : Env) (good : Hash → Transaction → Prop) (pool : Pool) : Prop where
  holds : pool.Holds env good
  keys : (pool.txpool.map Prod.fst).Nodup
  tallies : pool.Tallies pool.txpool

/-- A pool whose indexes describe its rows. -/
structure Pool.Exact (env : Env) (good : Hash → Transaction → Prop) (pool : Pool) : Prop
    extends pool.Counted env good where
  sorts : pool.Sorts pool.txpool

/-! ## Rows -/

section Rows

variable {rows others : Table Hash PoolTx} {pool : Pool} {id : Hash} {row : PoolTx}
variable {image : KeyImage}

theorem spends_cons {other : Hash} :
    Spends ((id, row) :: rows) image other ↔
      (other = id ∧ image ∈ row.blob.keyImages) ∨ Spends rows image other := by
  constructor
  · rintro ⟨found, member, spent⟩
    rcases mem_cons.mp member with first | later
    · cases first
      exact .inl ⟨rfl, spent⟩
    · exact .inr ⟨found, later, spent⟩
  · rintro (⟨rfl, spent⟩ | ⟨found, member, spent⟩)
    · exact ⟨row, mem_cons_self, spent⟩
    · exact ⟨found, mem_cons_of_mem _ member, spent⟩

theorem Spends.mem_keys (spends : Spends rows image id) : id ∈ rows.map fst := by
  obtain ⟨found, member, -⟩ := spends
  exact mem_map.mpr ⟨_, member, rfl⟩

theorem Pool.Tallies.perm (tallies : pool.Tallies rows) (same : rows.Perm others) :
    pool.Tallies others where
  weight := by rw [tallies.weight, (same.map _).sum_nat]
  index := tallies.index.congr fun image other =>
    exists_congr fun _ => and_congr_left fun _ => same.mem_iff

theorem Pool.Describes.perm (describes : pool.Describes rows) (same : rows.Perm others) :
    pool.Describes others :=
  ⟨describes.tallies.perm same, describes.sorts.trans (same.map _)⟩

/-- Rows that differ in what the indexes do not record. -/
theorem Pool.Describes.map {change : Hash × PoolTx → Hash × PoolTx}
    (describes : pool.Describes rows) (sameId : ∀ row, (change row).1 = row.1)
    (sameBlob : ∀ row, (change row).2.blob = row.2.blob)
    (sameWeight : ∀ row, (change row).2.details.weight = row.2.details.weight) :
    pool.Describes (rows.map change) where
  tallies := by
    refine ⟨?_, describes.tallies.index.congr fun image other => ?_⟩
    · rw [describes.tallies.weight, List.map_map]
      simp only [Function.comp_def, sameWeight]
    · constructor
      · rintro ⟨found, member, spent⟩
        refine ⟨(change (other, found)).2, mem_map.mpr ⟨_, member, ?_⟩, ?_⟩
        · exact Prod.ext (sameId _) rfl
        · rw [sameBlob]
          exact spent
      · rintro ⟨found, member, spent⟩
        obtain ⟨old, present, same⟩ := mem_map.mp member
        obtain rfl : old.1 = other := by rw [← sameId old, same]
        refine ⟨old.2, present, ?_⟩
        rw [← sameBlob old, same]
        exact spent
  sorts := by
    rw [Pool.Sorts, List.map_map, show Prod.fst ∘ change = Prod.fst from funext sameId]
    exact describes.sorts

end Rows

/-! ## The sorted container -/

section Sorted

/-- Entries of different transactions are ordered one way or the other. -/
theorem txCompare_of_not {first second : SortedEntry} (different : first.id ≠ second.id)
    (notLess : txCompare first second = false) : txCompare second first = true := by
  unfold txCompare at notLess ⊢
  split at notLess
  · cases notLess
  · split at notLess
    · rename_i less
      rw [if_pos less]
    · split at notLess
      · cases notLess
      · split at notLess
        · rename_i notMore notFee notEarlier later
          rw [if_neg notFee, if_neg notMore, if_pos later]
        · simp [different] at notLess

variable {entry : SortedEntry} {entries : List SortedEntry}

/-- The entry of a transaction that has none is inserted. -/
theorem emplaceSorted_perm (fresh : entry.id ∉ entries.map (·.id)) :
    (emplaceSorted entry entries).Perm (entry :: entries) := by
  have placed : (entries.takeWhile fun other => !txCompare entry other).getLast?.all
      (txCompare · entry) = true := by
    rw [Option.all_eq_true]
    intro last isLast
    have member := mem_of_getLast? isLast
    have notLess : txCompare entry last = false := by
      simpa using mem_takeWhile_imp member
    refine txCompare_of_not (fun same => fresh ?_) notLess
    exact mem_map.mpr ⟨last, (takeWhile_sublist _).subset member, same.symm⟩
  rw [emplaceSorted]
  simp only [placed]
  refine perm_middle.trans (.cons _ ?_)
  rw [takeWhile_append_dropWhile]

variable {rows : Table Hash PoolTx} {pool after : Pool} {id : Hash} {row : PoolTx}

theorem Pool.Sorts.add (sorts : pool.Sorts rows) (fresh : entry.id ∉ rows.map fst)
    (added : after.txsByFeeAndReceiveTime = emplaceSorted entry pool.txsByFeeAndReceiveTime) :
    after.Sorts ((entry.id, row) :: rows) := by
  rw [Sorts, added]
  have missing : entry.id ∉ pool.txsByFeeAndReceiveTime.map (·.id) :=
    fun member => fresh (sorts.mem_iff.mp member)
  exact ((emplaceSorted_perm missing).map _).trans (.cons _ sorts)

/-- Erasing the first entry with an id from the entries of some ids. -/
theorem eraseP_perm {ids : List Hash} (sorts : (entries.map (·.id)).Perm (id :: ids)) :
    ((entries.eraseP (·.id = id)).map (·.id)).Perm ids := by
  obtain ⟨entry, present, same⟩ := mem_map.mp (sorts.mem_iff.mpr mem_cons_self)
  obtain ⟨found, before, rest, -, isFound, split, erased⟩ :=
    @exists_of_eraseP _ (fun other : SortedEntry => decide (other.id = id)) _ _ present
      (decide_eq_true same)
  have foundId : found.id = id := of_decide_eq_true isFound
  rw [split, map_append, map_cons, foundId] at sorts
  rw [erased, map_append]
  exact (perm_middle.symm.trans sorts).cons_inv

theorem Pool.Sorts.drop (sorts : pool.Sorts ((id, row) :: rows))
    (dropped : after.txsByFeeAndReceiveTime =
      pool.txsByFeeAndReceiveTime.eraseP (·.id = id)) : after.Sorts rows := by
  rw [Sorts, dropped]
  exact eraseP_perm sorts

theorem Pool.Sorts.dropEntry (sorts : pool.Sorts ((entry.id, row) :: rows))
    (present : entry ∈ pool.txsByFeeAndReceiveTime)
    (dropped : after.txsByFeeAndReceiveTime = pool.txsByFeeAndReceiveTime.erase entry) :
    after.Sorts rows := by
  rw [Sorts, dropped]
  have split : (pool.txsByFeeAndReceiveTime.map (·.id)).Perm
      (entry.id :: (pool.txsByFeeAndReceiveTime.erase entry).map (·.id)) :=
    (perm_cons_erase present).map _
  exact (split.symm.trans sorts).cons_inv

end Sorted

/-! ## Key images -/

section Images

variable {pool : Pool} {id : Hash} {related : KeyImage → Hash → Prop}

/-- The key images of a list of inputs. -/
def imagesOf (inputs : List TxIn) : List KeyImage :=
  inputs.filterMap TxIn.keyImage?

theorem Pool.setSpenders_setSpenders_self (pool : Pool) (image : KeyImage)
    (old new : List Hash) :
    (pool.setSpenders image old).setSpenders image new = pool.setSpenders image new := by
  simp [setSpenders]

/-- Inserting the key images of a transaction that is in no set yet. One that does not come
from a block must be the only one to spend them. -/
theorem insertOutputKeyImages_run {txRelay : RelayMethod} {inputs : List TxIn}
    (indexes : pool.spentOutputKeyImages.Indexes related)
    (supported : ∀ input ∈ inputs, input.fromKey?.isSome = true)
    (distinct : (imagesOf inputs).Nodup)
    (fresh : ∀ image ∈ imagesOf inputs, ¬ related image id)
    (alone : txRelay ≠ .block → ∀ image ∈ imagesOf inputs, ∀ other, ¬ related image other) :
    ∃ sets, (insertOutputKeyImages id txRelay inputs).run pool =
        (.ok true, { pool with spentOutputKeyImages := sets }) ∧
      sets.Indexes fun image other =>
        (other = id ∧ image ∈ imagesOf inputs) ∨ related image other := by
  induction inputs generalizing pool related with
  | nil => exact ⟨pool.spentOutputKeyImages, rfl, indexes.congr (by simp [imagesOf])⟩
  | cons input rest ih =>
    cases input with
    | gen height => exact absurd (supported _ mem_cons_self) (by simp [TxIn.fromKey?])
    | fromKey input =>
      have images : imagesOf (.fromKey input :: rest) = input.outputKeyImage :: imagesOf rest := rfl
      rw [images] at distinct fresh alone ⊢
      obtain ⟨notLater, distinct⟩ := nodup_cons.mp distinct
      have admitted : ¬ (txRelay ≠ .block ∧ ¬ (pool.spenders input.outputKeyImage = [] ∨
          pool.spenders input.outputKeyImage = [id])) := by
        rintro ⟨notBlock, several⟩
        exact several (.inl (indexes.members_eq_nil (alone notBlock _ mem_cons_self)))
      have absent : id ∉ pool.spenders input.outputKeyImage :=
        fun member => fresh _ mem_cons_self ((indexes.mem_members _ _).mp member)
      -- The other key images are different, so nothing has changed for them.
      have later : ∀ image ∈ imagesOf rest, ∀ other,
          (image = input.outputKeyImage ∧ other = id) ∨ related image other →
            related image other := by
        rintro image member other (⟨rfl, -⟩ | old)
        · exact absurd member notLater
        · exact old
      obtain ⟨sets, ran, indexed⟩ := @ih
        (pool.setSpenders input.outputKeyImage (id :: pool.spenders input.outputKeyImage)) _
        (indexes.insert (fresh _ mem_cons_self))
        (fun other member => supported other (mem_cons_of_mem _ member)) distinct
        (fun image member spent => fresh image (mem_cons_of_mem _ member)
          (later image member id spent))
        (fun notBlock image member other spent => alone notBlock image
          (mem_cons_of_mem _ member) other (later image member other spent))
      refine ⟨sets, ?_, indexed.congr fun image other => ?_⟩
      · rw [insertOutputKeyImages, get_bind_run]
        rw [modify_bind_run, if_neg admitted,
          if_neg absent, modify_bind_run, setSpenders_setSpenders_self]
        exact ran
      · rw [mem_cons]
        tauto

/-- Removing the key images of a transaction that is in all their sets. -/
theorem removeTransactionKeyimages_run {inputs : List TxIn}
    (indexes : pool.spentOutputKeyImages.Indexes related)
    (supported : ∀ input ∈ inputs, input.fromKey?.isSome = true)
    (distinct : (imagesOf inputs).Nodup) (owned : ∀ image ∈ imagesOf inputs, related image id) :
    ∃ sets, (removeTransactionKeyimages id inputs).run pool =
        (.ok true, { pool with spentOutputKeyImages := sets }) ∧
      sets.Indexes fun image other =>
        related image other ∧ ¬ (other = id ∧ image ∈ imagesOf inputs) := by
  induction inputs generalizing pool related with
  | nil => exact ⟨pool.spentOutputKeyImages, rfl, indexes.congr (by simp [imagesOf])⟩
  | cons input rest ih =>
    cases input with
    | gen height => exact absurd (supported _ mem_cons_self) (by simp [TxIn.fromKey?])
    | fromKey input =>
      have images : imagesOf (.fromKey input :: rest) = input.outputKeyImage :: imagesOf rest := rfl
      rw [images] at distinct owned ⊢
      obtain ⟨notLater, distinct⟩ := nodup_cons.mp distinct
      have member : id ∈ pool.spentOutputKeyImages.members input.outputKeyImage :=
        (indexes.mem_members _ _).mpr (owned _ mem_cons_self)
      cases found : pool.spentOutputKeyImages.find input.outputKeyImage with
      | none => simp [members, found] at member
      | some ids =>
        have present : id ∈ ids := by simpa [members, found] using member
        have owned : ∀ image ∈ imagesOf rest, related image id ∧
            ¬ (image = input.outputKeyImage ∧ id = id) := by
          intro image later
          refine ⟨owned image (mem_cons_of_mem _ later), ?_⟩
          rintro ⟨rfl, -⟩
          exact notLater later
        obtain ⟨sets, ran, indexed⟩ := @ih
          { pool with
            spentOutputKeyImages :=
              if ids.erase id = [] then
                pool.spentOutputKeyImages.remove input.outputKeyImage
              else
                pool.spentOutputKeyImages.set input.outputKeyImage (ids.erase id) } _
          (indexes.delete id found)
          (fun other later => supported other (mem_cons_of_mem _ later)) distinct owned
        refine ⟨sets, ?_, indexed.congr fun image other => ?_⟩
        · rw [removeTransactionKeyimages, get_bind_run, found]
          rw [ite_run, if_pos present]
          exact ran
        · rw [mem_cons]
          tauto

end Images

/-! ## One row -/

section Step

variable {env : Env} {good : Hash → Transaction → Prop} {pool : Pool} {id : Hash} {row : PoolTx}
  {rows : Table Hash PoolTx}

theorem Identifies.inputs (identifies : Identifies good) {tx : Transaction}
    (accepted : good id tx) : ∀ input ∈ tx.vin, input.fromKey?.isSome = true :=
  all_eq_true.mp (identifies.supported accepted)

theorem Pool.Tallies.weight_sub (tallies : pool.Tallies ((id, row) :: rows)) :
    sub 64 pool.txpoolWeight row.details.weight =
      wrap 64 (rows.map (·.2.details.weight)).sum := by
  rw [tallies.weight, map_cons, sum_cons, sub_wrap_add]

theorem Pool.Tallies.weight_add (tallies : pool.Tallies rows) :
    add 64 pool.txpoolWeight row.details.weight =
      wrap 64 ((((id, row) :: rows).map (·.2.details.weight)).sum) := by
  rw [tallies.weight, map_cons, sum_cons, add_wrap, Nat.add_comm]

/-- The pool without a row, with other sets and entries. -/
def Pool.dropRow (pool : Pool) (id : Hash) (weight : Nat) (sets : Table KeyImage (List Hash))
    (entries : List SortedEntry) : Pool :=
  { pool with
    txpool := pool.txpool.remove id
    txpoolWeight := Word.sub 64 pool.txpoolWeight weight
    spentOutputKeyImages := sets
    txsByFeeAndReceiveTime := entries }

variable (counted : pool.Counted env good)
include counted

/-- Removing a row and then its key images. -/
theorem Pool.Counted.drop_run (identifies : Identifies good)
    (found : pool.txpool.find id = some row) (entries : List SortedEntry) :
    ∃ sets, (removeTransactionKeyimages id row.blob.vin).run
        (pool.dropRow id row.details.weight pool.spentOutputKeyImages entries) =
          (.ok true, pool.dropRow id row.details.weight sets entries) ∧
      ∀ others, (pool.dropRow id row.details.weight sets others).Counted env good := by
  have member := mem_of_find found
  have accepted := (counted.holds.rows _ member).1
  have tallies := counted.tallies.perm (perm_cons_remove counted.keys member)
  obtain ⟨sets, ran, indexed⟩ := @removeTransactionKeyimages_run
    (pool.dropRow id row.details.weight pool.spentOutputKeyImages entries) id _ row.blob.vin
    tallies.index (identifies.inputs accepted) (identifies.distinct accepted)
    (fun image spent => spends_cons.mpr (.inl ⟨rfl, spent⟩))
  refine ⟨sets, ran, fun others => ⟨?_, nodup_keys_remove counted.keys id,
    tallies.weight_sub, indexed.congr fun image other => ?_⟩⟩
  · exact counted.holds.of_subset (fun _ => mem_of_mem_remove) fun _ old => old
  · rw [spends_cons]
    constructor
    · rintro ⟨own | old, notOwn⟩
      · exact absurd own notOwn
      · exact old
    · intro old
      refine ⟨.inr old, ?_⟩
      rintro ⟨rfl, -⟩
      exact not_mem_keys_remove _ _ old.mem_keys

/-- The entries and the timed out transactions do not count. -/
theorem Pool.Counted.withEntries (entries : List SortedEntry) (timedOut : List Hash) :
    ({ pool with
      txsByFeeAndReceiveTime := entries
      timedOutTransactions := timedOut } : Pool).Counted env good :=
  ⟨⟨counted.holds.rows, counted.holds.cached⟩, counted.keys,
    counted.tallies.weight, counted.tallies.index⟩

/-- The rows left when a row is dropped. -/
theorem Pool.Counted.perm_remove (found : pool.txpool.find id = some row)
    (same : pool.txpool.Perm ((id, row) :: rows)) : (pool.txpool.remove id).Perm rows :=
  ((perm_cons_remove counted.keys (mem_of_find found)).symm.trans same).cons_inv

end Step

/-! ## Locked transactions -/

section Locked

variable {α : Type} {body : PoolM (α × Bool)} {pool : Pool}
variable {after : Pool} {value : α}
variable (inBatch : Bool)

theorem lockedTxn_run_commit (ran : body.run pool = (.ok (value, true), after)) :
    (lockedTxn inBatch body).run pool = (.ok value, after) := by
  simp [lockedTxn, bind_run, tryCatch_run, ran]

/-- An abort has nothing to undo if the rows are the same. -/
theorem lockedTxn_run_abort (ran : body.run pool = (.ok (value, false), after))
    (same : after.txpool = pool.txpool) :
    (lockedTxn inBatch body).run pool = (.ok value, after) := by
  simp [lockedTxn, bind_run, tryCatch_run, ran, ← same]

/-- A transaction of the database that is always committed. -/
theorem ensures_lockedTxn_commit {inBatch : Bool} {post : α → Pool → Prop}
    (ran : body.Ensures pool (fun value after => value.2 = true ∧ post value.1 after)
      fun _ => False) : (lockedTxn inBatch body).Ensures pool post fun _ => False := by
  unfold lockedTxn
  rw [ensures_get_bind, ensures_bind]
  refine (ran.tryCatch fun _ _ => False.elim).mono ?_ fun _ => id
  rintro value after ⟨committed, reached⟩
  rw [if_pos committed]
  exact reached

end Locked

/-! ## Taking -/

section Taking

variable {env : Env} {good : Hash → Transaction → Prop} {pool : Pool} {id : Hash}
variable (inBatch : Bool)

theorem takeTx_run_none (missing : pool.txpool.find id = none) :
    (takeTx inBatch id).run pool = (.ok none, pool) := by
  simp [takeTx, lockedTxn, bind_run, tryCatch_run, missing]

/-- What `take_tx` returns for a row. -/
def PoolTx.taken (row : PoolTx) : TakenTx :=
  { tx := row.blob
    blob := row.blob
    txWeight := row.details.weight
    fee := row.details.fee
    relayed := row.details.relayed
    doNotRelay := row.details.doNotRelay
    doubleSpendSeen := row.details.doubleSpendSeen
    pruned := row.details.pruned }

/-- Taking a stored transaction removes its row and everything that describes it. -/
theorem takeTx_run_some (exact : pool.Exact env good) (identifies : Identifies good)
    {row : PoolTx} (found : pool.txpool.find id = some row) :
    ∃ sets, (takeTx inBatch id).run pool = (.ok (some row.taken),
        pool.dropRow id row.details.weight sets (pool.txsByFeeAndReceiveTime.eraseP (·.id = id))) ∧
      (pool.dropRow id row.details.weight sets
        (pool.txsByFeeAndReceiveTime.eraseP (·.id = id))).Exact env good := by
  obtain ⟨sets, ran, counted⟩ := exact.drop_run identifies found pool.txsByFeeAndReceiveTime
  have member := mem_of_find found
  have cached : (pool.parsedTxCache.find id).getD row.blob = row.blob := by
    cases hit : pool.parsedTxCache.find id with
    | none => rfl
    | some tx =>
      exact identifies.unique (exact.holds.rows _ member).1 (exact.holds.cached _ (mem_of_find hit))
  have sorts : pool.Sorts ((id, row) :: pool.txpool.remove id) :=
    exact.sorts.trans ((perm_cons_remove exact.keys member).map fst)
  simp only [dropRow] at ran
  refine ⟨sets, ?_, counted _, sorts.drop rfl⟩
  simp [takeTx, lockedTxn, bind_run, tryCatch_run, found, cached, ran, dropRow, PoolTx.taken]

end Taking

/-! ## Removing -/

section Removing

variable {env : Env} {good : Hash → Transaction → Prop} {pool : Pool}
variable {entry : SortedEntry} {entries : List SortedEntry} {stuck : Table Hash PoolTx}

theorem Pool.Exact.find_of_entry (exact : pool.Exact env good)
    (present : entry ∈ pool.txsByFeeAndReceiveTime) :
    ∃ row, pool.txpool.find entry.id = some row := by
  have member : entry.id ∈ pool.txpool.map fst :=
    exact.sorts.mem_iff.mp (mem_map_of_mem present)
  obtain ⟨row, stored, same⟩ := mem_map.mp member
  exact ⟨row.2, find_of_mem exact.keys (same ▸ stored)⟩

theorem Pool.Exact.entries_nodup (exact : pool.Exact env good) :
    pool.txsByFeeAndReceiveTime.Nodup :=
  .of_map _ (exact.sorts.nodup_iff.mpr exact.keys)

/-- `prune` drops a row with its entry. -/
theorem Pool.Exact.pruneEntry_run (exact : pool.Exact env good) (identifies : Identifies good)
    (present : entry ∈ pool.txsByFeeAndReceiveTime) {row : PoolTx}
    (found : pool.txpool.find entry.id = some row) :
    ∃ sets, (removeTransactionKeyimages entry.id row.blob.vin).run
        { pool with
          txpool := pool.txpool.remove entry.id
          txpoolWeight := sub 64 pool.txpoolWeight row.details.weight } =
        (.ok true, pool.dropRow entry.id row.details.weight sets pool.txsByFeeAndReceiveTime) ∧
      (pool.dropRow entry.id row.details.weight sets
        (pool.txsByFeeAndReceiveTime.erase entry)).Exact env good := by
  obtain ⟨sets, ran, counted⟩ := exact.drop_run identifies found pool.txsByFeeAndReceiveTime
  have sorts : pool.Sorts ((entry.id, row) :: pool.txpool.remove entry.id) :=
    exact.sorts.trans ((perm_cons_remove exact.keys (mem_of_find found)).map _)
  exact ⟨sets, ran, counted _, sorts.dropEntry present rfl⟩

/-- The loop of `prune` meets only entries of stored transactions. -/
theorem pruneEntries_ensures (identifies : Identifies good) {bytes : Nat}
    (exact : pool.Exact env good) (present : ∀ entry ∈ entries, entry ∈ pool.txsByFeeAndReceiveTime)
    (distinct : entries.Nodup) :
    (pruneEntries bytes entries).Ensures pool
      (fun finished after => finished = true ∧ after.Exact env good ∧
        ∀ row ∈ after.txpool, row ∈ pool.txpool) fun _ => False := by
  induction entries generalizing pool with
  | nil => exact ⟨rfl, exact, fun _ => id⟩
  | cons entry rest ih =>
    obtain ⟨notLater, distinct⟩ := nodup_cons.mp distinct
    have others : ∀ other ∈ rest, other ∈ pool.txsByFeeAndReceiveTime :=
      fun other member => present other (mem_cons_of_mem _ member)
    obtain ⟨row, found⟩ := exact.find_of_entry (present entry mem_cons_self)
    unfold pruneEntries
    rw [ensures_get_bind, ensures_ite]
    refine ⟨fun _ => ⟨rfl, exact, fun _ => id⟩, fun _ => ?_⟩
    rw [found]
    rw [ensures_ite]
    refine ⟨fun _ => ih exact others distinct, fun _ => ?_⟩
    rw [ensures_modify_bind, ensures_bind]
    obtain ⟨sets, ran, pruned⟩ :=
      exact.pruneEntry_run identifies (present entry mem_cons_self) found
    refine .of_run ran ?_
    refine (ih pruned (fun other member => ?_) distinct).mono ?_ fun _ => id
    · refine (mem_erase_of_ne ?_).mpr (others other member)
      rintro rfl
      exact notLater member
    · rintro finished after ⟨done, exactAfter, kept⟩
      exact ⟨done, exactAfter, fun row member => mem_of_mem_remove (kept row member)⟩

theorem prune_ensures (identifies : Identifies good) (exact : pool.Exact env good)
    (inBatch : Bool) (bytes : Nat) :
    (prune env inBatch bytes).Ensures pool
      (fun _ after => after.Exact env good ∧ ∀ row ∈ after.txpool, row ∈ pool.txpool)
      fun _ => False := by
  refine ensures_lockedTxn_commit ?_
  rw [ensures_get_bind, ensures_bind]
  exact pruneEntries_ensures identifies exact
    (fun entry member => mem_of_mem_tail (mem_reverse.mp member))
    (nodup_reverse.mpr exact.entries_nodup.tail)

variable {others : Table Hash PoolTx}

/-- The rows `stuck` are dropped one after the other; their entries have been erased before. -/
theorem removeStuck_ensures (identifies : Identifies good) (counted : pool.Counted env good)
    (split : pool.txpool.Perm (stuck ++ others)) :
    (removeStuck stuck).Ensures pool
      (fun _ after => after.Counted env good ∧ after.txpool.Perm others ∧
        after.txsByFeeAndReceiveTime = pool.txsByFeeAndReceiveTime) fun _ => False := by
  induction stuck generalizing pool with
  | nil => exact ⟨counted, split, rfl⟩
  | cons item rest ih =>
    obtain ⟨id, row⟩ := item
    have found : pool.txpool.find id = some row :=
      find_of_mem counted.keys (split.mem_iff.mpr mem_cons_self)
    obtain ⟨sets, ran, dropped⟩ :=
      counted.drop_run identifies found pool.txsByFeeAndReceiveTime
    unfold removeStuck
    rw [ensures_modify_bind, ensures_bind]
    refine .of_run ran ?_
    exact ih (dropped _) (counted.perm_remove found split)

theorem eraseStuck_sorts (sorts : (entries.map (·.id)).Perm ((stuck ++ others).map fst)) :
    ((stuck.foldl (fun entries row => entries.eraseP (·.id = row.1)) entries).map (·.id)).Perm
      (others.map fst) := by
  induction stuck generalizing entries with
  | nil => exact sorts
  | cons item rest ih => exact ih (eraseP_perm sorts)

variable (identifies : Identifies good) (exact : pool.Exact env good)
include identifies exact

theorem removeStuckTransactions_ensures (now : Nat) :
    (removeStuckTransactions now).Ensures pool
      (fun _ after => after.Exact env good ∧
        after.txpool.Perm (pool.txpool.filter fun row => !row.2.details.isStuck now))
      fun _ => False := by
  have split : pool.txpool.Perm ((pool.txpool.filter fun row => row.2.details.isStuck now) ++
      pool.txpool.filter fun row => !row.2.details.isStuck now) :=
    (filter_append_perm _ _).symm
  have removed := fun entries timedOut =>
    removeStuck_ensures identifies (exact.withEntries entries timedOut) split
  refine (removed _ _).mono ?_ fun _ => id
  rintro done after ⟨counted, left, entries⟩
  refine ⟨⟨counted, ?_⟩, left⟩
  rw [Sorts, entries]
  exact (eraseStuck_sorts (exact.sorts.trans (split.map _))).trans (left.map _).symm

/-- The rows `invalid` are dropped with their entries. -/
theorem removeInvalid_ensures {invalid : Table Hash PoolTx}
    (split : pool.txpool.Perm (invalid ++ others)) :
    (removeInvalid env invalid).Ensures pool
      (fun _ after => after.Exact env good ∧ after.txpool.Perm others) fun _ => False := by
  induction invalid generalizing pool with
  | nil => exact ⟨exact, split⟩
  | cons item rest ih =>
    obtain ⟨id, row⟩ := item
    have found : pool.txpool.find id = some row :=
      find_of_mem exact.keys (split.mem_iff.mpr mem_cons_self)
    have member := mem_of_find found
    obtain ⟨sets, ran, dropped⟩ := exact.drop_run identifies found pool.txsByFeeAndReceiveTime
    have sorts : pool.Sorts ((id, row) :: pool.txpool.remove id) :=
      exact.sorts.trans ((perm_cons_remove exact.keys member).map _)
    unfold removeInvalid
    rw [ensures_modify_bind, ensures_bind, ← (exact.holds.rows _ member).2.weight]
    refine .of_run ran ?_
    exact ih ⟨dropped _, sorts.drop rfl⟩ (exact.perm_remove found split)

/-- `validate` recomputes the weight and removes what is too heavy or on the chain. -/
theorem validate_ensures (db : ChainTables) :
    (validate env db).Ensures pool
      (fun _ after => after.Exact env good ∧
        after.txpool.Perm (pool.txpool.filter fun row => !db.invalidates row)) fun _ => False := by
  have split : pool.txpool.Perm ((pool.txpool.filter db.invalidates) ++
      pool.txpool.filter fun row => !db.invalidates row) :=
    (filter_append_perm _ _).symm
  have recomputed : sum64 (pool.txpool.map (·.2.details.weight)) = pool.txpoolWeight :=
    (foldl_add 0 _).trans (by rw [Nat.zero_add, exact.tallies.weight])
  unfold validate
  rw [ensures_get_bind, ensures_modify_bind, recomputed, ensures_bind]
  exact (removeInvalid_ensures identifies exact split).mono (fun _ _ => id) fun _ => id

end Removing

/-! ## Adding -/

section Adding

variable {env : Env} {good : Hash → Transaction → Prop} {pool : Pool}

/-- No stored transaction spends a key image of `tx`. -/
def Pool.Unspent (pool : Pool) (tx : Transaction) : Prop :=
  ∀ image ∈ tx.keyImages, ∀ other, ¬ Spends pool.txpool image other

/-- The pool with a new row, with other cached transactions and sets. -/
def Pool.addRow (env : Env) (pool : Pool) (id : Hash) (row : PoolTx)
    (cache : Table Hash Transaction) (sets : Table KeyImage (List Hash)) : Pool :=
  { pool with
    txpool := pool.txpool.put id row
    parsedTxCache := cache
    spentOutputKeyImages := sets
    txsByFeeAndReceiveTime :=
      emplaceSorted (row.details.sortedEntry env id) pool.txsByFeeAndReceiveTime
    txpoolWeight := Word.add 64 pool.txpoolWeight row.details.weight }

/-- The cache that `add_tx` leaves: a transaction from a block is cached. -/
def Pool.cacheWith (pool : Pool) (input : AddTxInput) : Table Hash Transaction :=
  if input.txRelay = .block ∧ ¬ pool.parsedTxCache.has input.id then
    pool.parsedTxCache.put input.id input.tx
  else
    pool.parsedTxCache

theorem Pool.cacheWith_eq (pool : Pool) (input : AddTxInput) :
    (if input.txRelay = .block ∧ ¬ pool.parsedTxCache.has input.id then
      { pool with parsedTxCache := pool.parsedTxCache.put input.id input.tx } else pool) =
      { pool with parsedTxCache := pool.cacheWith input } := by
  unfold cacheWith
  split <;> rfl

variable {input : AddTxInput} {inBatch : Bool} {details : TxpoolTxMeta}

theorem Pool.Exact.cached (exact : pool.Exact env good) (accepted : good input.id input.tx) :
    ∀ entry ∈ pool.cacheWith input, good entry.1 entry.2 := by
  intro entry member
  unfold cacheWith at member
  split at member
  · rcases mem_put.mp member with rfl | old
    · exact accepted
    · exact exact.holds.cached entry old
  · exact exact.holds.cached entry member

/-- A transaction that is not stored yet is stored, with its row in all indexes. -/
theorem storeTx_run (identifies : Identifies good) (exact : pool.Exact env good)
    {inputsAccepted : Bool} (faithful : input.Faithful env good)
    (row : ({ details := details, blob := input.blob } : PoolTx).Faithful env)
    (missing : pool.txpool.find input.id = none)
    (alone : input.txRelay ≠ .block → pool.Unspent input.tx) :
    ∃ cache sets, (storeTx env inBatch input details inputsAccepted).run pool =
        (.ok true, { pool.addRow env input.id { details := details, blob := input.blob }
          cache sets with txpoolWeight := pool.txpoolWeight }) ∧
      (pool.addRow env input.id { details := details, blob := input.blob } cache sets).Exact
        env good := by
  have absent : input.id ∉ pool.txpool.map fst := find_eq_none_iff.mp missing
  have images : imagesOf input.tx.vin = input.tx.keyImages := rfl
  obtain ⟨sets, ran, indexed⟩ := @insertOutputKeyImages_run
    { pool with parsedTxCache := pool.cacheWith input } input.id _ input.txRelay input.tx.vin
      exact.tallies.index
    (identifies.inputs faithful.accepted) (identifies.distinct faithful.accepted)
    (fun image _ spent => absent spent.mem_keys) alone
  refine ⟨pool.cacheWith input, sets, ?_, ⟨⟨?_, exact.cached faithful.accepted⟩, ?_, ?_, ?_⟩, ?_⟩
  · have cleared : ∀ start : Pool, start.txpool = pool.txpool →
        (if inputsAccepted then { start with txpool := start.txpool.remove input.id }
          else start) = start := by
      intro start same
      rw [same, remove_of_find_eq_none missing, ← same, ite_self]
    unfold storeTx
    rw [modify_bind_run, pool.cacheWith_eq]
    refine lockedTxn_run_commit inBatch ?_
    rw [modify_bind_run, cleared { pool with parsedTxCache := pool.cacheWith input } rfl,
      bind_ok ran, if_pos rfl, modify_bind_run, pure_run, Table.set, remove_of_find_eq_none missing]
    rfl
  · intro entry member
    rcases mem_put.mp member with rfl | old
    · exact ⟨faithful.same ▸ faithful.accepted, row⟩
    · exact exact.holds.rows entry old
  · exact nodup_cons.mpr ⟨absent, exact.keys⟩
  · exact @Tallies.weight_add pool input.id _ _ exact.tallies
  · refine indexed.congr fun image other => ?_
    rw [addRow, put, spends_cons, images, faithful.same]
  · exact exact.sorts.add (show (details.sortedEntry env input.id).id ∉ _ from absent) rfl

/-- Storing a transaction is followed by a `prune`. -/
theorem finishAddTx_run (identifies : Identifies good) (exact : pool.Exact env good)
    {inputsAccepted : Bool} (faithful : input.Faithful env good)
    (row : ({ details := details, blob := input.blob } : PoolTx).Faithful env)
    (weight : details.weight = input.txWeight) (missing : pool.txpool.find input.id = none)
    (alone : input.txRelay ≠ .block → pool.Unspent input.tx) :
    ∃ cache sets, (finishAddTx env inBatch input details inputsAccepted).run pool =
        (prune env inBatch env.txpoolMaxWeight >>= fun _ => pure true).run
          (pool.addRow env input.id { details := details, blob := input.blob } cache sets) ∧
      (pool.addRow env input.id { details := details, blob := input.blob } cache sets).Exact
        env good := by
  obtain ⟨cache, sets, ran, added⟩ := @storeTx_run env good pool input inBatch details
    identifies exact inputsAccepted faithful row missing alone
  refine ⟨cache, sets, ?_, added⟩
  rw [finishAddTx, bind_ok ran, ← weight]
  rfl

/-- The row is another row, up to what neither the indexes nor the relay method depend on. -/
structure SameRelay (old row : Hash × PoolTx) : Prop where
  id : old.1 = row.1
  blob : old.2.blob = row.2.blob
  relay : old.2.details.getRelayMethod = row.2.details.getRelayMethod

theorem SameRelay.refl (row : Hash × PoolTx) : SameRelay row row :=
  ⟨rfl, rfl, rfl⟩

/-- The row that a call of `add_tx` stores. -/
structure AddTxInput.Stores (input : AddTxInput) (pool : Pool) (row : Hash × PoolTx) : Prop where
  id : row.1 = input.id
  blob : row.2.blob = input.blob
  relay : row.2.details.getRelayMethod = input.txRelay
  alone : input.txRelay ≠ .block → pool.Unspent input.tx

/-- What a call of `add_tx` may change: it may store a row, and drop rows. -/
def Pool.Offered (input : AddTxInput) (pool after : Pool) : Prop :=
  ∀ row ∈ after.txpool, (∃ old ∈ pool.txpool, SameRelay old row) ∨ input.Stores pool row

theorem Pool.Offered.of_subset {after : Pool} (kept : ∀ row ∈ after.txpool, row ∈ pool.txpool) :
    pool.Offered input after :=
  fun row member => .inl ⟨row, kept row member, .refl row⟩

theorem AddTxInput.newMeta_getRelayMethod (input : AddTxInput) (fee : Nat)
    (used : Option (Nat × Hash)) (doubleSpendSeen : Bool) :
    (input.newMeta fee used doubleSpendSeen).getRelayMethod = input.txRelay := by
  cases relay : input.txRelay <;>
    simp [AddTxInput.newMeta, TxpoolTxMeta.setRelayMethod, TxpoolTxMeta.getRelayMethod, relay]

theorem finishAddTx_ensures (identifies : Identifies good) (exact : pool.Exact env good)
    {inputsAccepted : Bool} (faithful : input.Faithful env good)
    (row : ({ details := details, blob := input.blob } : PoolTx).Faithful env)
    (weight : details.weight = input.txWeight) (relay : details.getRelayMethod = input.txRelay)
    (missing : pool.txpool.find input.id = none)
    (alone : input.txRelay ≠ .block → pool.Unspent input.tx) :
    (finishAddTx env inBatch input details inputsAccepted).Ensures pool
      (fun _ after => after.Exact env good ∧ pool.Offered input after) fun _ => False := by
  obtain ⟨cache, sets, ran, added⟩ := @finishAddTx_run env good pool input inBatch
    details identifies exact inputsAccepted faithful row weight missing alone
  refine .of_run_eq ran ?_
  rw [ensures_bind]
  refine (prune_ensures identifies added inBatch env.txpoolMaxWeight).mono ?_ fun _ => id
  rintro done after ⟨exactAfter, kept⟩
  refine ⟨exactAfter, fun stored member => ?_⟩
  rcases mem_put.mp (kept stored member) with rfl | old
  · exact .inr ⟨rfl, rfl, relay, alone⟩
  · exact .inl ⟨stored, old, .refl stored⟩

/-- The key images of a transaction that is stored already are refused, unless its row is
private. -/
theorem insertOutputKeyImages_again {related : KeyImage → Hash → Prop} {id : Hash}
    (indexes : pool.spentOutputKeyImages.Indexes related)
    (legacy : pool.haveTx id .legacy = true) {first : TxinFromKey}
    (spent : related first.outputKeyImage id) (rest : List TxIn) :
    ∃ sets, (insertOutputKeyImages id .block (.fromKey first :: rest)).run pool =
        (.ok false, { pool with spentOutputKeyImages := sets }) ∧ sets.Indexes related := by
  have member : id ∈ pool.spenders first.outputKeyImage := (indexes.mem_members _ _).mpr spent
  refine ⟨_, ?_, indexes.refresh (ne_nil_of_mem member)⟩
  rw [insertOutputKeyImages, get_bind_run, modify_bind_run, if_pos member, if_pos legacy]
  rfl

/-- A transaction from a block whose inputs are refused is not stored again. -/
theorem finishAddTx_again (identifies : Identifies good) (exact : pool.Exact env good)
    (faithful : input.Faithful env good) (block : input.txRelay = .block)
    (legacy : pool.haveTx input.id .legacy = true) (spends : input.tx.vin ≠ []) :
    (finishAddTx env inBatch input details false).Ensures pool
      (fun _ after => after.Exact env good ∧ after.txpool = pool.txpool) fun _ => False := by
  obtain ⟨row, found⟩ : ∃ row, pool.txpool.find input.id = some row := by
    unfold haveTx at legacy
    split at legacy
    · cases legacy
    · exact ⟨_, ‹_›⟩
  have same : row.blob = input.tx :=
    identifies.unique faithful.accepted (exact.holds.rows _ (mem_of_find found)).1
  obtain ⟨first, rest, inputs⟩ := exists_cons_of_ne_nil spends
  cases first with
  | gen height =>
    have supported := identifies.inputs faithful.accepted (.gen height) (by simp [inputs])
    simp [TxIn.fromKey?] at supported
  | fromKey first =>
    have spent : Spends pool.txpool first.outputKeyImage input.id := by
      refine ⟨row, mem_of_find found, ?_⟩
      rw [same, Transaction.keyImages, inputs]
      exact mem_cons_self
    obtain ⟨sets, ran, indexed⟩ := @insertOutputKeyImages_again
      { pool with parsedTxCache := pool.cacheWith input } _ input.id exact.tallies.index legacy
      first spent rest
    have stored : (storeTx env inBatch input details false).run pool = (.ok false,
        { pool with
          parsedTxCache := pool.cacheWith input
          spentOutputKeyImages := sets }) := by
      unfold storeTx
      rw [modify_bind_run, pool.cacheWith_eq, block, inputs]
      refine lockedTxn_run_abort inBatch ?_ rfl
      exact bind_ok ran
    rw [finishAddTx, ensures_bind]
    refine .of_run stored ?_
    exact ⟨⟨⟨⟨exact.holds.rows, exact.cached faithful.accepted⟩, exact.keys,
      exact.tallies.weight, indexed⟩, exact.sorts⟩, rfl⟩

/-- A transaction whose key images count as unspent is the only one to spend them, if it is
not stored. -/
theorem Pool.Exact.unspent (exact : pool.Exact env good) {tx : Transaction} {id : Hash}
    (missing : pool.txpool.find id = none) (free : pool.haveTxKeyimgesAsSpent tx id = false) :
    pool.Unspent tx := by
  intro image spent other spends
  obtain ⟨input, present, carries⟩ := mem_filterMap.mp spent
  have member : other ∈ pool.spenders image := (exact.tallies.index.mem_members _ _).mpr spends
  have notSpent := any_eq_false.mp free input present
  cases input with
  | gen height => cases carries
  | fromKey input =>
    cases carries
    dsimp only at notSpent
    unfold haveTxKeyimgAsSpent at notSpent
    split at notSpent
    · rename_i none
      rw [none] at member
      cases member
    · rename_i single one
      rw [one, mem_singleton] at member
      subst member
      rw [if_pos] at notSpent
      · exact notSpent rfl
      · rintro rfl
        exact find_eq_none_iff.mp missing spends.mem_keys
    · exact notSpent rfl

variable {change : Hash × PoolTx → Hash × PoolTx}

theorem keys_map {rows : Table Hash PoolTx} (sameId : ∀ row, (change row).1 = row.1) :
    (rows.map change).map fst = rows.map fst := by
  rw [List.map_map, show Prod.fst ∘ change = Prod.fst from funext sameId]

/-- Changes of the rows that the indexes do not record. -/
theorem Pool.Exact.mapRows (exact : pool.Exact env good) (sameId : ∀ row, (change row).1 = row.1)
    (sameBlob : ∀ row, (change row).2.blob = row.2.blob)
    (sameWeight : ∀ row, (change row).2.details.weight = row.2.details.weight)
    (holds : ({ pool with txpool := pool.txpool.map change } : Pool).Holds env good) :
    ({ pool with txpool := pool.txpool.map change } : Pool).Exact env good := by
  have described : pool.Describes (pool.txpool.map change) :=
    Describes.map ⟨exact.tallies, exact.sorts⟩ sameId sameBlob sameWeight
  refine ⟨⟨holds, ?_, described.tallies.weight, described.tallies.index⟩, described.sorts⟩
  rw [keys_map sameId]
  exact exact.keys

theorem markDoubleSpend_exact (exact : pool.Exact env good) (tx : Transaction) :
    (markDoubleSpend tx).Ensures pool
      (fun _ after => after.Exact env good ∧
        ∀ row ∈ after.txpool, ∃ old ∈ pool.txpool, SameRelay old row) fun _ => False := by
  have marked := markDoubleSpend_maintains tx pool exact.holds
  refine ⟨exact.mapRows ?_ ?_ ?_ marked, ?_⟩
  case refine_4 =>
    intro row member
    obtain ⟨old, present, rfl⟩ := mem_map.mp member
    refine ⟨old, present, ?_⟩
    split
    · exact ⟨rfl, rfl, rfl⟩
    · exact .refl old
  all_goals
    intro row
    split <;> rfl

theorem setRelayed_exact (exact : pool.Exact env good) (hashes : List Hash)
    (method : RelayMethod) (now : Nat) :
    (setRelayed hashes method now).Ensures pool
      (fun _ after => after.Exact env good ∧
        after.txpool.map fst = pool.txpool.map fst) fun _ => False := by
  have relayed := setRelayed_maintains hashes method now pool exact.holds
  refine ⟨exact.mapRows ?_ ?_ ?_ relayed, keys_map ?_⟩
  all_goals
    intro row
    split <;> rfl

/-- A call of `add_tx` that stores a transaction whose id is stored already. -/
def Pool.AddsAgain (env : Env) (db : ChainTables) (scanTable : ScanTable) (pool : Pool)
    (input : AddTxInput) : Prop :=
  pool.txpool.find input.id ≠ none ∧ pool.passesChecks env input = true ∧
    ∃ used, db.checkRingctInputsWithId env scanTable input.uninit input.tx = .ok used ∧
      (used = none → input.txRelay = .block ∧
        (pool.haveTx input.id .legacy = false ∨ input.tx.vin = []))

/-- `add_tx` keeps the indexes exact, unless it stores a stored transaction again. -/
theorem addTx_exact (identifies : Identifies good) (exact : pool.Exact env good) {db : ChainTables}
    {scanTable : ScanTable}
    (given : pool.passesChecks env input = true →
      input.txRelay = .block ∨
      (∃ used, db.checkRingctInputsWithId env scanTable input.uninit input.tx = .ok (some used)) →
      input.Faithful env good)
    (once : ¬ pool.AddsAgain env db scanTable input) :
    (addTx env db scanTable inBatch input).Ensures pool
      (fun _ after => after.Exact env good ∧ pool.Offered input after)
      fun after => after = pool := by
  apply addTx_rule
  case refused => exact ⟨exact, .of_subset fun _ => id⟩
  case marked =>
    refine (markDoubleSpend_exact exact input.tx).mono ?_ fun _ => False.elim
    rintro done after ⟨exactAfter, alike⟩
    exact ⟨exactAfter, fun row member => .inl (alike row member)⟩
  case failed => exact fun _ _ => rfl
  case stores =>
    intro fee used computed passes checked stored
    have faithful := given passes (block_or_accepted checked stored)
    by_cases missing : pool.txpool.find input.id = none
    · have alone : input.txRelay ≠ .block → pool.Unspent input.tx := fun notBlock =>
        exact.unspent missing (passesChecks_unspent passes notBlock)
      exact (finishAddTx_ensures identifies exact faithful (faithful.row computed used _) rfl
        (input.newMeta_getRelayMethod _ _ _) missing alone).mono (fun _ _ => id)
          fun _ => False.elim
    · have refused : used = none := by
        by_contra accepted
        exact once ⟨missing, passes, used, checked, fun none => absurd none accepted⟩
      have harmless : ¬ (pool.haveTx input.id .legacy = false ∨ input.tx.vin = []) :=
        fun defect => once ⟨missing, passes, used, checked, fun _ => ⟨stored refused, defect⟩⟩
      rw [not_or, Bool.not_eq_false] at harmless
      subst refused
      refine (finishAddTx_again identifies exact faithful (stored rfl) harmless.1
        harmless.2).mono ?_ fun _ => False.elim
      rintro done after ⟨exactAfter, same⟩
      exact ⟨exactAfter, .of_subset fun row member => same ▸ member⟩

end Adding

/-! ## Starting -/

section Starting

variable {env : Env} {good : Hash → Transaction → Prop} {pool : Pool}
  {all rows processed : Table Hash PoolTx}

/-- Of two rows that spend the same key image, at most one does not come from a block. -/
def OneRelayed (rows : Table Hash PoolTx) : Prop :=
  ∀ first ∈ rows, ∀ second ∈ rows, first.1 ≠ second.1 →
    (∃ image ∈ first.2.blob.keyImages, image ∈ second.2.blob.keyImages) →
      first.2.details.txFromBlock = true ∨ second.2.details.txFromBlock = true

theorem TxpoolTxMeta.getRelayMethod_eq_block (details : TxpoolTxMeta) :
    details.getRelayMethod = .block ↔ details.txFromBlock = true := by
  unfold TxpoolTxMeta.getRelayMethod
  split
  · simp [*]
  · repeat' split
    all_goals simp [*]

/-- A pass of `init` adds its rows to the indexes. The rows `processed` are in them already;
in the first pass none of these comes from a block. -/
theorem initPass_ensures (identifies : Identifies good) {kept : Bool}
    (accepted : ∀ row ∈ rows, good row.1 row.2.blob) (relayed : OneRelayed all)
    (within : ∀ row ∈ rows ++ processed, row ∈ all)
    (first : kept = false → ∀ row ∈ processed, row.2.details.txFromBlock = false)
    (unique : ((rows.filter (·.2.details.txFromBlock = kept) ++ processed).map
      fst).Nodup) (describes : pool.Describes processed) :
    (initPass env kept rows).Ensures pool
      (fun done after => done = true ∧ after.Describes
          (rows.filter (·.2.details.txFromBlock = kept) ++ processed) ∧
        after.txpool = pool.txpool ∧ after.parsedTxCache = pool.parsedTxCache)
      fun _ => False := by
  induction rows generalizing pool processed with
  | nil => exact ⟨rfl, describes, rfl, rfl⟩
  | cons item rest ih =>
    obtain ⟨id, row⟩ := item
    have acceptedRest : ∀ other ∈ rest, good other.1 other.2.blob :=
      fun other member => accepted other (mem_cons_of_mem _ member)
    unfold initPass
    rw [ensures_ite]
    refine ⟨fun skipped => ?_, fun taken => ?_⟩
    · rw [filter_cons_of_neg (by simpa using skipped)] at unique ⊢
      exact ih acceptedRest (fun other member => within other (by simp_all)) first unique
        describes
    · have kind : row.details.txFromBlock = kept := not_not.mp taken
      rw [filter_cons_of_pos (by simpa using kind)] at unique ⊢
      obtain ⟨fresh, -⟩ := nodup_cons.mp unique
      have self : (id, row) ∈ all := within _ (by simp)
      have goodRow := accepted (id, row) mem_cons_self
      have notProcessed : id ∉ processed.map fst := fun member =>
        fresh (map_append ▸ mem_append_right _ member)
      have alone : row.details.getRelayMethod ≠ .block →
          ∀ image ∈ imagesOf row.blob.vin, ∀ other, ¬ Spends processed image other := by
        rintro notBlock image spent other ⟨found, member, shares⟩
        have notFromBlock : row.details.txFromBlock = false := by
          rw [← Bool.not_eq_true, ← TxpoolTxMeta.getRelayMethod_eq_block]
          exact notBlock
        have different : id ≠ other := by
          rintro rfl
          exact notProcessed (mem_map.mpr ⟨_, member, rfl⟩)
        rcases relayed (id, row) self (other, found) (within _ (by simp [member])) different
          ⟨image, spent, shares⟩ with own | others
        · exact Bool.false_ne_true (notFromBlock.symm.trans own)
        · exact Bool.false_ne_true
            ((first (kind.symm.trans notFromBlock) _ member).symm.trans others)
      obtain ⟨sets, ran, indexed⟩ := @insertOutputKeyImages_run pool id _
        row.details.getRelayMethod row.blob.vin describes.tallies.index
        (identifies.inputs goodRow) (identifies.distinct goodRow)
        (fun image _ spent => notProcessed spent.mem_keys) alone
      rw [ensures_bind]
      refine .of_run ran ?_
      have middle : (rest ++ (id, row) :: processed).Perm ((id, row) :: rest ++ processed) :=
        perm_middle
      refine (@ih _ ((id, row) :: processed) acceptedRest
        (fun other member => within other (middle.mem_iff.mp member)) ?_ ?_ ⟨⟨?_, ?_⟩, ?_⟩).mono
          ?_ fun _ => False.elim
      · intro isFirst other member
        rcases mem_cons.mp member with rfl | old
        · exact kind.trans isFirst
        · exact first isFirst other old
      · exact (perm_middle.map fst).nodup_iff.mpr unique
      · exact @Tallies.weight_add pool id row processed describes.tallies
      · exact indexed.congr fun image other => spends_cons.symm
      · exact describes.sorts.add (show (row.details.sortedEntry env id).id ∉ _ from
          notProcessed) rfl
      · rintro done after ⟨finished, described, sameRows, sameCache⟩
        exact ⟨finished, described.perm perm_middle, sameRows, sameCache⟩

/-- `init` rebuilds the indexes from the rows, if no two of them that do not come from a block
spend the same key image. -/
theorem initPool_ensures (identifies : Identifies good) (holds : pool.Holds env good)
    (unique : (pool.txpool.map fst).Nodup) (relayed : OneRelayed pool.txpool) :
    (initPool env).Ensures pool
      (fun done after => done = true ∧ after.Exact env good ∧ after.txpool = pool.txpool)
      fun _ => False := by
  have accepted : ∀ row ∈ pool.txpool, good row.1 row.2.blob :=
    fun row member => (holds.rows row member).1
  have cleared : ({ pool with
      txsByFeeAndReceiveTime := []
      spentOutputKeyImages := []
      txpoolWeight := 0 } : Pool).Describes [] :=
    ⟨⟨rfl, Indexes.empty.congr (by simp [Spends])⟩, .nil⟩
  unfold initPool
  rw [ensures_get_bind, ensures_modify_bind, ensures_bind]
  have split : (pool.txpool.filter (fun row : Hash × PoolTx => row.2.details.txFromBlock = true) ++
      (pool.txpool.filter (fun row : Hash × PoolTx => row.2.details.txFromBlock = false) ++
        [])).Perm pool.txpool := by
    simpa using filter_append_perm (fun row : Hash × PoolTx => row.2.details.txFromBlock)
      pool.txpool
  refine (initPass_ensures identifies accepted relayed (by simp) (by simp) ?_ cleared).mono ?_
    fun _ => id
  · rw [append_nil]
    exact unique.sublist (filter_sublist.map _)
  rintro done middle ⟨finished, described, sameRows, sameCache⟩
  rw [finished]
  refine (initPass_ensures identifies accepted relayed ?_ (by simp) ?_ described).mono ?_
    fun _ => id
  · intro row member
    simp only [append_nil, mem_append, mem_filter] at member
    exact member.elim id And.left
  · exact (split.map fst).nodup_iff.mpr unique
  · rintro done after ⟨finished, described, rowsAfter, cacheAfter⟩
    have described := described.perm split
    rw [sameRows] at rowsAfter
    rw [sameCache] at cacheAfter
    refine ⟨finished, ⟨⟨⟨?_, ?_⟩, ?_, ?_⟩, ?_⟩, rowsAfter⟩
    · rw [rowsAfter]
      exact holds.rows
    · rw [cacheAfter]
      exact holds.cached
    · rw [rowsAfter]
      exact unique
    · rw [rowsAfter]
      exact described.tallies
    · rw [rowsAfter]
      exact described.sorts

end Starting

end Memero
