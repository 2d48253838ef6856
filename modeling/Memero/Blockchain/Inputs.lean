import Memero.Consensus.Rules
import Memero.Database.Tables

/-!
# Inputs and outputs of a transaction against the chain

`check_ringct_inputs` and `check_ringct_outputs` of `cryptonote/core/blockchain.cpp`, with
the lookup of ring members in the database or in the table that
`prepare_handle_incoming_blocks` fills. What the functions report beside their verdict (the
flags of `tx_verification_context`) is left out.
-/

namespace Memero

/-- `m_scan_table`: by transaction prefix hash and key image, the outputs looked up in
advance. -/
abbrev ScanTable : Type :=
  Table Hash (Table KeyImage (List OutputData))

/-- `config::lol::mixin`. -/
def mixin : Nat := 31

/-- `config::lol::tx_version`. -/
def txVersion : Nat := 2

/-- `CRYPTONOTE_DEFAULT_TX_SPENDABLE_AGE`. -/
def defaultTxSpendableAge : Nat := 4

/-- `CRYPTONOTE_LOCKED_TX_ALLOWED_DELTA_BLOCKS`. -/
def lockedTxAllowedDeltaBlocks : Nat := 1

/-- The loop of `relative_output_offsets_to_absolute` after `previous`. -/
def absoluteOffsetsFrom : Nat → List Nat → List Nat
  | _, [] => []
  | previous, offset :: rest =>
    Word.add 64 offset previous :: absoluteOffsetsFrom (Word.add 64 offset previous) rest

/-- `relative_output_offsets_to_absolute`. -/
def relativeOutputOffsetsToAbsolute : List Nat → List Nat
  | [] => []
  | first :: rest => first :: absoluteOffsetsFrom first rest

namespace ChainTables

variable (env : Env) (db : ChainTables)

/-! ## Ring members -/

/-- `get_output_key`; the commitment of an output with a public amount is computed. -/
def getOutputKey (amount index : Nat) : Option OutputData :=
  (db.findOutput amount index).map fun row =>
    if amount = 0 then row.data
    else { row.data with commitment := some ((env.dummyCommit amount).value fun _ => identity) }

/-- `get_output_key` for several offsets, with partial results allowed. -/
def getOutputKeys (amount : Nat) : List Nat → List OutputData
  | [] => []
  | offset :: rest =>
    match db.getOutputKey env amount offset with
    | none => []
    | some output => output :: getOutputKeys amount rest

/-- `is_tx_spendtime_unlocked`. -/
def isTxSpendtimeUnlocked (unlockHeight : Nat) : Bool :=
  unlockHeight == 0 || decide (unlockHeight < db.height + lockedTxAllowedDeltaBlocks)

/-- The loop of `scan_outputkeys_for_indexes`: an output that was not looked up yet is
looked up now. -/
def visitOutputs (amount : Nat) : List OutputData → List Nat → Option (List OutputData)
  | _, [] => some []
  | outputs, offset :: rest =>
    match outputs.head?.or (db.getOutputKey env amount offset) with
    | none => none
    | some output =>
      if db.isTxSpendtimeUnlocked output.unlockHeight then
        (visitOutputs amount outputs.tail rest).map (output :: ·)
      else
        none

/-- The outputs `scan_outputkeys_for_indexes` starts from. -/
def prefetchedOutputs (scanTable : ScanTable) (input : TxinFromKey) (txPrefixHash : Hash)
    (absoluteOffsets : List Nat) : Option (List OutputData) :=
  match (scanTable.find txPrefixHash).bind (·.find input.outputKeyImage) with
  | none =>
    let outputs := db.getOutputKeys env input.amount absoluteOffsets
    if absoluteOffsets.length ≠ outputs.length then none else some outputs
  | some outputs =>
    if outputs.length < absoluteOffsets.length ∧ 0 < outputs.length then
      let addOffsets := absoluteOffsets.drop outputs.length
      let addOutputs := db.getOutputKeys env input.amount addOffsets
      if addOffsets.length ≠ addOutputs.length then none else some (outputs ++ addOutputs)
    else
      some outputs

/-- `scan_outputkeys_for_indexes` with the visitor of `check_ringct_input`: the ring and the
height of its last member. -/
def scanOutputkeysForIndexes (scanTable : ScanTable) (input : TxinFromKey)
    (txPrefixHash : Hash) : Option (List OutputPublicData × Nat) :=
  if input.outputRelativeOffsets.isEmpty then
    none
  else
    let absoluteOffsets := relativeOutputOffsetsToAbsolute input.outputRelativeOffsets
    (db.prefetchedOutputs env scanTable input txPrefixHash absoluteOffsets).bind fun outputs =>
      (db.visitOutputs env input.amount outputs absoluteOffsets).map fun visited =>
        (visited.map fun output =>
          { outputPublicKey := output.pubkey, commit := output.commitment.getD 0 },
        (visited.getLast?.map (·.height)).getD 0)

/-- The loop of `check_ringct_inputs` over the inputs: the rings and the largest height. -/
def checkInputs (scanTable : ScanTable) (txPrefixHash : Hash) :
    List TxinFromKey → Nat → Option (List (List OutputPublicData) × Nat)
  | [], maxUsedBlockHeight => some ([], maxUsedBlockHeight)
  | input :: rest, maxUsedBlockHeight =>
    if db.hasOutputKeyImage input.outputKeyImage then
      none
    else
      (db.scanOutputkeysForIndexes env scanTable input txPrefixHash).bind fun ring =>
        (checkInputs scanTable txPrefixHash rest (max maxUsedBlockHeight ring.2)).map
          fun others => (ring.1 :: others.1, others.2)

end ChainTables

/-! ## `check_ringct_inputs` -/

/-- The ring sizes less one, as the loop over the inputs computes them. -/
def ringMixins (tx : Transaction) : List Nat :=
  (tx.vin.filterMap TxIn.fromKey?).map fun input =>
    Word.sub 64 input.outputRelativeOffsets.length 1

/-- `min_actual_mixin`. -/
def minActualMixin (tx : Transaction) : Nat :=
  (ringMixins tx).foldl min (2 ^ 64 - 1)

/-- `max_actual_mixin`. -/
def maxActualMixin (tx : Transaction) : Nat :=
  (ringMixins tx).foldl max 0

/-- `expand_transaction_2`, for a transaction of version 2. -/
def expandTransaction2 (tx : Transaction) (inputs : List TxinFromKey) (txPrefixHash : Hash)
    (pubkeys : List (List OutputPublicData)) : Option Reconstructed :=
  if tx.ringct.type ≠ .clsag then
    none
  else if pubkeys.isEmpty ∨ (pubkeys.headD []).isEmpty then
    none
  else if tx.ringct.p.clsags.length ≠ tx.vin.length then
    none
  else
    some
      { message := txPrefixHash
        decoys := pubkeys
        signerKeyImages := inputs.map (·.outputKeyImage) }

namespace ChainTables

/-- The part of `check_ringct_inputs` before the signatures are verified: the data to verify
and the height of the youngest output spent, or `none` if the transaction is refused. -/
def collectRingct (env : Env) (db : ChainTables) (scanTable : ScanTable) (tx : Transaction) :
    Except Exn (Option (RctDataSizeChecked × Nat)) :=
  if ¬ rule21 tx.vout then
    .ok none
  else if minActualMixin tx ≠ maxActualMixin tx then
    .ok none
  else if minActualMixin tx ≠ mixin then
    .ok none
  else if tx.version ≠ txVersion then
    .ok none
  else
    match tx.vin.mapM TxIn.fromKey? with
    | none => .error .badGet
    | some inputs =>
      if ¬ rule18 (inputs.map (·.outputKeyImage)) then
        .ok none
      else
        match db.checkInputs env scanTable (env.getTransactionPrefixHash tx) inputs 0 with
        | none => .ok none
        | some (pubkeys, maxUsedBlockHeight) =>
          if db.height < Word.add 64 maxUsedBlockHeight defaultTxSpendableAge then
            .ok none
          else
            .ok ((expandTransaction2 tx inputs (env.getTransactionPrefixHash tx)
              pubkeys).bind fun reconstructed =>
                (maybeSizeCheckedRctData tx.ringct reconstructed).map fun checked =>
                  (checked, maxUsedBlockHeight))

/-- `check_ringct_inputs`: the height of the youngest output spent, or `none` for `false`. -/
def checkRingctInputs (env : Env) (db : ChainTables) (scanTable : ScanTable)
    (uninit : Uninit) (tx : Transaction) : Except Exn (Option Nat) :=
  (db.collectRingct env scanTable tx).map fun collected =>
    collected.bind fun data =>
      if (env.verifyClsagSignatures data.1).value uninit then some data.2 else none

end ChainTables

/-- `check_ringct_outputs`. -/
def Env.checkRingctOutputs (env : Env) (tx : Transaction) : Bool :=
  tx.vout.all (·.amount = 0) && decide (tx.ringct.type = .clsag) &&
    ((env.checkTxOutputPoints tx).isSome && env.checkRingctPoints tx)

end Memero
