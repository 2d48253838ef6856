import Memero.Blockchain.Inputs
import Memero.Database.Ledger

/-!
# The table of outputs looked up in advance

`prepare_handle_incoming_blocks` looks outputs up before the blocks of a batch are added,
and `check_ringct_inputs` uses what it found. Blocks only append outputs, so an output that
was found stays where it is, and the check gives the result it would give without the table.
-/

namespace Memero

open List Option

namespace ChainTables

/-! ## Outputs stay -/

/-- Every output of the first tables is found in the second. -/
def Retains (before after : ChainTables) : Prop :=
  ∀ amount index row, before.findOutput amount index = some row →
    after.findOutput amount index = some row

theorem Retains.refl (db : ChainTables) : db.Retains db :=
  fun _ _ _ found => found

variable {after : ChainTables} {outputs : List OutputData} {offsets : List Nat}
  {scanTable : ScanTable}

theorem Retains.trans {before middle : ChainTables} (first : before.Retains middle)
    (second : middle.Retains after) : before.Retains after :=
  fun amount index row found => second amount index row (first amount index row found)

/-- The indices of an amount are below the number of its outputs. -/
def Numbered (db : ChainTables) : Prop :=
  ∀ row ∈ db.outputAmounts, row.2.amountIndex < db.getNumOutputs row.1

variable {db : ChainTables} {txPrefixHash : Hash}

theorem Numbered.of_eq (numbered : db.Numbered) (same : after.outputAmounts = db.outputAmounts) :
    after.Numbered := by
  unfold Numbered getNumOutputs
  rw [same]
  exact numbered

theorem Retains.of_eq (same : after.outputAmounts = db.outputAmounts) : db.Retains after := by
  intro amount index row found
  unfold findOutput at found ⊢
  rwa [same]

/-- An output that is found is a row of its amount with its index. -/
theorem mem_of_findOutput {amount index : Nat} {row : OutKey}
    (found : db.findOutput amount index = some row) :
    (amount, row) ∈ db.outputAmounts ∧ row.amountIndex = index := by
  obtain ⟨entry, located, same⟩ := map_eq_some_iff.mp found
  have keys := find?_some located
  simp only [decide_eq_true_eq] at keys
  have member := mem_of_find?_eq_some located
  cases entry
  cases same
  cases keys.1
  exact ⟨member, keys.2⟩

section PushOutput

variable {db : ChainTables} (txHash : Hash) (out : TxOut) (localIndex unlockHeight : Nat)
  (commitment : Option EcPoint)

theorem Numbered.pushOutput (numbered : db.Numbered) :
    (db.pushOutput txHash out localIndex unlockHeight commitment).Numbered := by
  intro row member
  rcases Table.mem_put.mp member with rfl | old
  · simp [getNumOutputs, ChainTables.pushOutput, Table.put, newOutKey]
  · refine Nat.lt_of_lt_of_le (numbered row old) ?_
    exact ((sublist_cons_self _ _).filter _).length_le

theorem Numbered.retains_pushOutput (numbered : db.Numbered) :
    db.Retains (db.pushOutput txHash out localIndex unlockHeight commitment) := by
  intro amount index row found
  have present := mem_of_findOutput found
  have new : ¬ (out.amount = amount ∧
      (db.newOutKey out unlockHeight commitment).amountIndex = index) := by
    rintro ⟨rfl, same⟩
    have below := numbered _ present.1
    rw [present.2, ← same] at below
    exact Nat.lt_irrefl _ below
  unfold findOutput at found ⊢
  simp only [ChainTables.pushOutput, Table.put, find?_cons, new]
  exact found

end PushOutput

/-- Adding a block leaves every output where it was. -/
theorem pushBlock_retains (env : Env) (entry : Entry) (numbered : db.Numbered) :
    (db.pushBlock env entry).Numbered ∧ db.Retains (db.pushBlock env entry) := by
  have filled : (db.fillBlock env entry).Numbered ∧ db.Retains (db.fillBlock env entry) := by
    refine fillBlock_induction (P := fun after => after.Numbered ∧ db.Retains after) ?_ ?_ env entry
      ⟨numbered, Retains.refl db⟩
    · intro middle after rows _ kept
      exact ⟨kept.1.of_eq rows, kept.2.trans (Retains.of_eq rows)⟩
    · intro middle txHash out localIndex unlockHeight commitment kept
      exact ⟨kept.1.pushOutput txHash out localIndex unlockHeight commitment,
        kept.2.trans (kept.1.retains_pushOutput txHash out localIndex unlockHeight commitment)⟩
  exact ⟨filled.1.of_eq rfl, filled.2.trans (Retains.of_eq rfl)⟩

theorem ofLedger_numbered (env : Env) (ledger : Ledger) : (ofLedger env ledger).Numbered := by
  induction ledger using reverseRecOn with
  | nil => exact fun row member => absurd member (by simp [empty])
  | append_singleton rest entry ih =>
    rw [ofLedger_append]
    exact (pushBlock_retains env entry ih).1

/-! ## Visiting a ring -/

/-- Outputs found for the first of some offsets. -/
def Known (env : Env) (db : ChainTables) (amount : Nat) : List OutputData → List Nat → Prop
  | [], _ => True
  | _ :: _, [] => False
  | output :: outputs, offset :: offsets =>
    db.getOutputKey env amount offset = some output ∧ Known env db amount outputs offsets

/-- The ring members at some offsets, if all of them exist and are unlocked. -/
def ringAt (env : Env) (db : ChainTables) (amount : Nat) : List Nat → Option (List OutputData)
  | [] => some []
  | offset :: rest =>
    match db.getOutputKey env amount offset with
    | none => none
    | some output =>
      if db.isTxSpendtimeUnlocked output.unlockHeight then
        (ringAt env db amount rest).map (output :: ·)
      else
        none

variable {env : Env} {db : ChainTables} {amount : Nat}

theorem Known.retained (retains : db.Retains after) (known : db.Known env amount outputs offsets) :
    after.Known env amount outputs offsets := by
  induction outputs generalizing offsets with
  | nil => trivial
  | cons output rest ih =>
    cases offsets with
    | nil => exact known
    | cons offset offsets =>
      refine ⟨?_, ih known.2⟩
      have found := known.1
      unfold getOutputKey at found ⊢
      obtain ⟨row, located, same⟩ := map_eq_some_iff.mp found
      rw [retains _ _ _ located, map_some, same]

/-- Outputs known in advance do not change what the loop finds. -/
theorem visitOutputs_of_known (known : db.Known env amount outputs offsets) :
    db.visitOutputs env amount outputs offsets = db.ringAt env amount offsets := by
  induction offsets generalizing outputs with
  | nil => rfl
  | cons offset rest ih =>
    cases outputs with
    | nil =>
      have others : db.visitOutputs env amount [] rest = db.ringAt env amount rest :=
        ih trivial
      cases found : db.getOutputKey env amount offset with
      | none => simp [visitOutputs, ringAt, found]
      | some output => simp [visitOutputs, ringAt, found, others]
    | cons output outputs =>
      simp only [visitOutputs, ringAt, head?_cons, some_or, tail_cons, known.1, ih known.2]

theorem getOutputKeys_known (offsets : List Nat) :
    db.Known env amount (db.getOutputKeys env amount offsets) offsets := by
  induction offsets with
  | nil => trivial
  | cons offset rest ih =>
    unfold getOutputKeys
    cases found : db.getOutputKey env amount offset with
    | none => trivial
    | some output => exact ⟨found, ih⟩

/-- If a lookup of all the outputs comes back short, there is no ring. -/
theorem ringAt_eq_none (short : offsets.length ≠ (db.getOutputKeys env amount offsets).length) :
    db.ringAt env amount offsets = none := by
  induction offsets with
  | nil => exact absurd rfl short
  | cons offset rest ih =>
    unfold getOutputKeys at short
    unfold ringAt
    cases found : db.getOutputKey env amount offset with
    | none => rfl
    | some output =>
      simp only [found, length_cons, ne_eq, Nat.add_right_cancel_iff] at short
      simp [ih short]

theorem Known.append (known : db.Known env amount outputs offsets) (more : List OutputData)
    (rest : db.Known env amount more (offsets.drop outputs.length)) :
    db.Known env amount (outputs ++ more) offsets := by
  induction outputs generalizing offsets with
  | nil => exact rest
  | cons output outputs ih =>
    cases offsets with
    | nil => exact known.elim
    | cons offset offsets => exact ⟨known.1, ih known.2 rest⟩

theorem ringAt_eq_none_of_drop (count : Nat)
    (missing : db.ringAt env amount (offsets.drop count) = none) :
    db.ringAt env amount offsets = none := by
  induction count generalizing offsets with
  | zero => exact missing
  | succ count ih =>
    cases offsets with
    | nil => exact missing
    | cons offset rest =>
      unfold ringAt
      cases db.getOutputKey env amount offset with
      | none => rfl
      | some output => simp [ih missing]

/-! ## The check with and without the table -/

/-- What a row of the table holds belongs to an input of a transaction with that prefix, and
agrees with the database. -/
def Agrees (env : Env) (db : ChainTables) (scanTable : ScanTable) : Prop :=
  ∀ txPrefixHash image outputs,
    (scanTable.find txPrefixHash).bind (·.find image) = some outputs →
      ∃ tx inputs, env.getTransactionPrefixHash tx = txPrefixHash ∧
        tx.vin.mapM TxIn.fromKey? = some inputs ∧
          ∃ input ∈ inputs, input.outputKeyImage = image ∧
            db.Known env input.amount outputs
              (relativeOutputOffsetsToAbsolute input.outputRelativeOffsets)

theorem Agrees.nil : db.Agrees env [] :=
  fun _ _ _ found => by cases found

theorem Agrees.retained (agrees : db.Agrees env scanTable) (retains : db.Retains after) :
    after.Agrees env scanTable := by
  intro txPrefixHash image outputs found
  obtain ⟨tx, inputs, hash, typed, input, member, same, known⟩ := agrees _ _ _ found
  exact ⟨tx, inputs, hash, typed, input, member, same, known.retained retains⟩

/-- The outputs the scan starts from lead to the ring at the offsets. -/
theorem prefetchedOutputs_bind {input : TxinFromKey}
    (known : ∀ outputs, (scanTable.find txPrefixHash).bind (·.find input.outputKeyImage) = some outputs → db.Known env input.amount outputs offsets) :
    ((db.prefetchedOutputs env scanTable input txPrefixHash offsets).bind fun outputs =>
      db.visitOutputs env input.amount outputs offsets) = db.ringAt env input.amount offsets := by
  unfold prefetchedOutputs
  cases row : (scanTable.find txPrefixHash).bind (·.find input.outputKeyImage) with
  | none =>
    dsimp only
    split
    · rename_i short
      exact (ringAt_eq_none short).symm
    · exact visitOutputs_of_known (getOutputKeys_known offsets)
  | some outputs =>
    have found := known outputs row
    dsimp only
    split
    · split
      · rename_i short
        exact (ringAt_eq_none_of_drop _ (ringAt_eq_none short)).symm
      · exact visitOutputs_of_known (found.append _ (getOutputKeys_known _))
    · exact visitOutputs_of_known found

/-- The ring of an input, read from the database alone. -/
theorem scanOutputkeysForIndexes_eq {input : TxinFromKey}
    (known : ∀ outputs, (scanTable.find txPrefixHash).bind (·.find input.outputKeyImage) = some outputs → db.Known env input.amount outputs (relativeOutputOffsetsToAbsolute input.outputRelativeOffsets)) :
    db.scanOutputkeysForIndexes env scanTable input txPrefixHash =
      db.scanOutputkeysForIndexes env [] input txPrefixHash := by
  have none : ∀ outputs, (Table.find ([] : ScanTable) txPrefixHash).bind
      (·.find input.outputKeyImage) = some outputs → db.Known env input.amount outputs
        (relativeOutputOffsetsToAbsolute input.outputRelativeOffsets) :=
    fun _ found => by cases found
  unfold scanOutputkeysForIndexes
  split
  · rfl
  · simp only [← map_bind, ← Function.comp_def, prefetchedOutputs_bind known,
      prefetchedOutputs_bind none]

theorem checkInputs_eq {inputs : List TxinFromKey} (highest : Nat)
    (known : ∀ input ∈ inputs, ∀ outputs, (scanTable.find txPrefixHash).bind (·.find input.outputKeyImage) = some outputs → db.Known env input.amount outputs (relativeOutputOffsetsToAbsolute input.outputRelativeOffsets)) :
    db.checkInputs env scanTable txPrefixHash inputs highest =
      db.checkInputs env [] txPrefixHash inputs highest := by
  induction inputs generalizing highest with
  | nil => rfl
  | cons input rest ih =>
    have others := fun height => ih height fun other member =>
      known other (mem_cons_of_mem _ member)
    simp only [checkInputs, scanOutputkeysForIndexes_eq (known input (by simp)), others]

end ChainTables

variable {inputs : List TxinFromKey}

/-- Inputs that pass the type check are the inputs it returns. -/
theorem vin_of_typed {vin : List TxIn} (typed : vin.mapM TxIn.fromKey? = some inputs) :
    vin = inputs.map .fromKey := by
  induction vin generalizing inputs with
  | nil =>
    cases typed
    rfl
  | cons input rest ih =>
    cases input with
    | gen height => simp [TxIn.fromKey?] at typed
    | fromKey input =>
      rw [mapM_cons] at typed
      cases others : rest.mapM TxIn.fromKey? with
      | none => simp [others] at typed
      | some inputs =>
        simp only [others] at typed
        cases typed
        rw [map_cons, ← ih others]

theorem keyImages_of_typed {vin : List TxIn} (typed : vin.mapM TxIn.fromKey? = some inputs) :
    vin.filterMap TxIn.keyImage? = inputs.map (·.outputKeyImage) := by
  rw [vin_of_typed typed, filterMap_map]
  exact congrFun filterMap_eq_map' inputs

namespace ChainTables

variable {env : Env} {db : ChainTables}

/-- `check_ringct_inputs` gives the result it would give without the table, for a transaction
with distinct key images and if a prefix hash belongs to one list of inputs. -/
theorem checkRingctInputs_eq {scanTable : ScanTable} (agrees : db.Agrees env scanTable)
    (binding : ∀ a b, env.getTransactionPrefixHash a = env.getTransactionPrefixHash b →
      a.vin = b.vin)
    {tx : Transaction} (distinct : tx.keyImages.Nodup) (uninit : Uninit) :
    db.checkRingctInputs env scanTable uninit tx = db.checkRingctInputs env [] uninit tx := by
  have collected : db.collectRingct env scanTable tx = db.collectRingct env [] tx := by
    unfold collectRingct
    cases typed : tx.vin.mapM TxIn.fromKey? with
    | none => rfl
    | some inputs =>
      have images : (inputs.map (·.outputKeyImage)).Nodup := by
        rw [← keyImages_of_typed typed]
        exact distinct
      have same : db.checkInputs env scanTable (env.getTransactionPrefixHash tx) inputs 0 =
          db.checkInputs env [] (env.getTransactionPrefixHash tx) inputs 0 := by
        apply checkInputs_eq
        intro input member outputs found
        obtain ⟨other, others, hash, otherTyped, owner, owned, image, known⟩ :=
          agrees _ _ _ found
        rw [binding other tx hash, typed] at otherTyped
        cases otherTyped
        have equal : owner = input := inj_on_of_nodup_map images owned member image
        cases equal
        exact known
      simp only [same]
  unfold checkRingctInputs
  rw [collected]

end ChainTables

end Memero
