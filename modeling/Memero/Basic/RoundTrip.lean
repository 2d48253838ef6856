import Memero.Basic.Serialization

/-!
# Round trips

What is written can be read back, and what is read is what would be written. The second holds
where no variable length integer is cut off by the end of the blob. A transaction with confidential
data ends in blobs, which have to be there in full; but a block ends in the number of its
transaction hashes.
-/

namespace Memero

open List Option Transaction Format

/-! ## What the types of the program can hold -/

def TxIn.InRange : TxIn → Prop
  | .gen height => height < 2 ^ 64
  | .fromKey x =>
    x.amount < 2 ^ 64 ∧ x.outputRelativeOffsets.length < 2 ^ 64 ∧
      (∀ offset ∈ x.outputRelativeOffsets, offset < 2 ^ 64) ∧ x.outputKeyImage < 256 ^ 32

def TxOut.InRange (x : TxOut) : Prop :=
  x.amount < 2 ^ 64 ∧ x.outputPublicKey < 256 ^ 32

structure BulletproofUnsafe.InRange (x : BulletproofUnsafe) : Prop where
  points : ∀ point ∈ [x.A, x.S, x.T1, x.T2] ++ x.L ++ x.R, point < 256 ^ 32
  scalars : ∀ scalar ∈ [x.tau, x.mu, x.a, x.b, x.t], scalar < 256 ^ 32
  sizes : x.L.length < 2 ^ 64 ∧ x.R.length < 2 ^ 64

def ClsagUnsafe.InRange (x : ClsagUnsafe) : Prop :=
  (∀ scalar ∈ x.s, scalar < 256 ^ 32) ∧ x.c1 < 256 ^ 32 ∧ x.blindingFactorSurplusKeyImage < 256 ^ 32

structure RctDataPrunable.InRange (x : RctDataPrunable) : Prop where
  bulletproofs : ∀ proof ∈ x.bulletproofs, proof.InRange
  -- the serialiser counts them in 32 bits
  count : x.bulletproofs.length < 2 ^ 32
  clsags : ∀ clsag ∈ x.clsags, clsag.InRange
  pseudoInputCommits : ∀ point ∈ x.pseudoInputCommits, point < 256 ^ 32

structure RctData.InRange (x : RctData) : Prop where
  fee : x.fee < 2 ^ 64
  ecdhEncryptedData : ∀ amount ∈ x.ecdhEncryptedData, amount < 2 ^ 64
  outputCommits : ∀ point ∈ x.outputCommits, point < 256 ^ 32
  p : x.p.InRange

structure TransactionPrefix.InRange (x : TransactionPrefix) : Prop where
  version : x.version < 2 ^ 64
  unlockHeight : x.unlockHeight < 2 ^ 64
  vin : ∀ input ∈ x.vin, input.InRange
  vout : ∀ output ∈ x.vout, output.InRange
  sizes : x.vin.length < 2 ^ 64 ∧ x.vout.length < 2 ^ 64 ∧ x.extra.length < 2 ^ 64

structure Transaction.InRange (tx : Transaction) : Prop where
  txPrefix : tx.txPrefix.InRange
  ringct : tx.ringct.InRange

structure BlockHeader.InRange (x : BlockHeader) : Prop where
  majorVersion : x.majorVersion < 2 ^ 8
  minorVersion : x.minorVersion < 2 ^ 8
  timestamp : x.timestamp < 2 ^ 64
  prevId : x.prevId < 256 ^ 32
  nonce : x.nonce < 256 ^ 8

structure Block.InRange (b : Block) : Prop where
  header : b.header.InRange
  minerTx : b.minerTx.InRange
  txHashes : ∀ hash ∈ b.txHashes, hash < 256 ^ 32
  size : b.txHashes.length < 2 ^ 64

/-! ## What is written -/

/-- The confidential data without what is not written of it. -/
def RctData.contents (x : RctData) : RctData :=
  if x.type = .null then .new else x

/-- The transaction without what is not written of it. -/
def Transaction.contents (tx : Transaction) : Transaction :=
  { tx with ringct := if tx.version = 1 ∨ tx.vin = [] then .new else tx.ringct.contents }

def Block.contents (b : Block) : Block :=
  { b with minerTx := b.minerTx.contents }

namespace Format

open BinaryFormat

theorem txIn_fits {x : TxIn} (range : x.InRange) : txIn.Fits x := by
  cases x with
  | gen height => exact ⟨⟨trivial, range, rfl⟩, rfl⟩
  | fromKey x =>
    obtain ⟨amount, length, offsets, image⟩ := range
    exact ⟨⟨trivial, ⟨amount, vector_fits length offsets, image⟩, rfl⟩, rfl⟩

theorem txOut_fits {x : TxOut} (range : x.InRange) : txOut.Fits x :=
  ⟨⟨range.1, trivial, range.2⟩, rfl⟩

variable {x : TransactionPrefix}

theorem transactionPrefix_fits (range : x.InRange) : transactionPrefix.Fits x := by
  obtain ⟨inputs, outputs, extra⟩ := range.sizes
  refine ⟨⟨range.version, range.unlockHeight, ?_, ?_, ?_⟩, rfl⟩
  · exact vector_fits inputs fun input member => txIn_fits (range.vin input member)
  · exact vector_fits outputs fun output member => txOut_fits (range.vout output member)
  · exact vector_fits extra fun _ _ => trivial

theorem bulletproof_fits {x : BulletproofUnsafe} (range : x.InRange) : bulletproof.Fits x := by
  obtain ⟨points, scalars, left, right⟩ := range
  simp only [mem_append, or_imp, forall_and, forall_mem_cons] at points scalars
  obtain ⟨⟨⟨A, S, T1, T2, -⟩, L⟩, R⟩ := points
  obtain ⟨tau, mu, a, b, t, -⟩ := scalars
  exact ⟨⟨A, S, T1, T2, tau, mu, vector_fits left L, vector_fits right R, a, b, t⟩, rfl⟩

variable {mixin outputs : Nat} {input rest : List UInt8}

theorem clsag_fits {x : ClsagUnsafe} (range : x.InRange) : (clsag mixin).Fits x :=
  ⟨range, rfl⟩

theorem ringctPrunable_fits (inputs outputs mixin : Nat) {x : RctDataPrunable}
    (range : x.InRange) : (ringctPrunable inputs outputs mixin).Fits x := by
  unfold ringctPrunable
  split
  · trivial
  · refine ⟨⟨range.count, ?_, ?_, range.pseudoInputCommits⟩, rfl⟩
    · exact fun proof member => bulletproof_fits (range.bulletproofs proof member)
    · exact fun clsag member => clsag_fits (range.clsags clsag member)

theorem rctData_fits (x : TransactionPrefix) {ringct : RctData} (range : ringct.InRange) :
    (rctData x).Fits ringct.contents := by
  unfold RctData.contents
  by_cases null : ringct.type = .null
  · rw [if_pos null]
    exact ⟨⟨⟨⟨trivial, rfl⟩, rfl⟩, rfl⟩, rfl⟩
  · rw [if_neg null]
    refine ⟨⟨⟨⟨trivial, ?_⟩, rfl⟩, ?_⟩, rfl⟩
    · obtain ⟨type, ecdh, commits, fee, p⟩ := ringct
      cases type with
      | null => exact absurd rfl null
      | clsag => exact ⟨range.fee, range.ecdhEncryptedData, range.outputCommits⟩
    · dsimp only
      rw [if_neg (show ringct.basic.type ≠ .null from null)]
      exact ringctPrunable_fits _ _ _ range.p

theorem rctData_contents (x : TransactionPrefix) (ringct : RctData) :
    (rctData x).write ringct.contents = (rctData x).write ringct ∧
      (rctData x).valid ringct.contents = (rctData x).valid ringct := by
  unfold RctData.contents
  split
  · rename_i null
    obtain ⟨type, ecdh, commits, fee, p⟩ := ringct
    cases null
    exact ⟨rfl, rfl⟩
  · exact ⟨rfl, rfl⟩

theorem ringct_of_short (short : x.version = 1 ∨ x.vin = []) : ringct x = .constant .new :=
  if_pos short

theorem ringct_of_not_short (long : ¬ (x.version = 1 ∨ x.vin = [])) : ringct x = rctData x :=
  if_neg long

variable {tx : Transaction} {inputs : Nat}

theorem ringct_fits (range : tx.ringct.InRange) : (ringct tx.txPrefix).Fits tx.contents.ringct := by
  unfold contents
  by_cases short : tx.version = 1 ∨ tx.vin = []
  · rw [ringct_of_short short, if_pos short]
    rfl
  · rw [ringct_of_not_short short, if_neg short]
    exact rctData_fits tx.txPrefix range

theorem ringct_contents (tx : Transaction) :
    (ringct tx.txPrefix).write tx.contents.ringct = (ringct tx.txPrefix).write tx.ringct ∧
      (ringct tx.txPrefix).valid tx.contents.ringct = (ringct tx.txPrefix).valid tx.ringct := by
  unfold contents
  by_cases short : tx.version = 1 ∨ tx.vin = []
  · rw [ringct_of_short short]
    exact ⟨rfl, rfl⟩
  · rw [ringct_of_not_short short, if_neg short]
    exact rctData_contents tx.txPrefix tx.ringct

theorem transaction_fits (range : tx.InRange) : transaction.Fits tx.contents :=
  ⟨⟨transactionPrefix_fits range.txPrefix, ringct_fits range.ringct⟩, rfl⟩

theorem transaction_contents (tx : Transaction) :
    transaction.write tx.contents = transaction.write tx ∧
      transaction.valid tx.contents = transaction.valid tx := by
  obtain ⟨write, valid⟩ := ringct_contents tx
  constructor
  · exact congrArg (transactionPrefix.write tx.txPrefix ++ ·) write
  · exact congrArg (transactionPrefix.valid tx.txPrefix && ·) valid

theorem blockHeader_fits {x : BlockHeader} (range : x.InRange) : blockHeader.Fits x :=
  ⟨⟨range.majorVersion, range.minorVersion, range.timestamp, range.prevId, range.nonce⟩, rfl⟩

theorem block_fits {b : Block} (range : b.InRange) : block.Fits b.contents :=
  ⟨⟨blockHeader_fits range.header, transaction_fits range.minerTx,
    vector_fits range.size range.txHashes⟩, rfl⟩

theorem block_contents (b : Block) :
    block.write b.contents = block.write b ∧ block.valid b.contents = block.valid b := by
  obtain ⟨write, valid⟩ := transaction_contents b.minerTx
  constructor
  · exact congrArg (fun bytes => blockHeader.write b.header ++ (bytes ++ _)) write
  · exact congrArg (fun good => (blockHeader.valid b.header && (good && _)) && _) valid

/-- The sizes that the serialiser of a prunable part insists on. -/
theorem ringctPrunable_sizes {x : RctDataPrunable}
    (valid : (ringctPrunable inputs outputs mixin).valid x = true) :
    x.bulletproofs.length = 1 ∧ x.clsags.length = inputs ∧
      x.pseudoInputCommits.length = inputs := by
  unfold ringctPrunable at valid
  split at valid
  · cases valid
  · simp only [map_valid, seq_valid, guard_valid, many_valid, Bool.and_eq_true, beq_iff_eq] at valid
    obtain ⟨⟨-, -, one⟩, -, clsags, commits⟩ := valid
    exact ⟨one, clsags.1, commits.1⟩

/-- The sizes that the serialiser of confidential data insists on. -/
theorem rctData_sizes {ringct : RctData} (valid : (rctData x).valid ringct = true)
    (confidential : ringct.type ≠ .null) :
    ringct.outputCommits.length = x.vout.length ∧
      ringct.ecdhEncryptedData.length = x.vout.length ∧ ringct.p.bulletproofs.length = 1 ∧
      ringct.p.clsags.length = x.vin.length ∧ ringct.p.pseudoInputCommits.length = x.vin.length := by
  obtain ⟨type, ecdh, commits, fee, p⟩ := ringct
  cases type with
  | null => exact absurd rfl confidential
  | clsag =>
    obtain ⟨basic, prunable⟩ := seq_valid.mp (map_valid.mp valid)
    obtain ⟨-, body⟩ := seq_valid.mp (map_valid.mp basic)
    obtain ⟨-, rest⟩ := seq_valid.mp body
    obtain ⟨amounts, commitments⟩ := seq_valid.mp rest
    exact ⟨(many_valid.mp commitments).1, (many_valid.mp amounts).1, ringctPrunable_sizes prunable⟩

/-- What is written can be expanded when it is read. -/
theorem expandTransaction_contents (valid : transaction.valid tx = true) :
    expandTransaction tx.contents = some tx.contents := by
  by_cases short : tx.version = 1 ∨ tx.vin = []
  · have null : tx.contents.ringct.type = .null := by
      unfold contents
      rw [if_pos short]
      rfl
    unfold expandTransaction
    rw [if_pos null, ite_self, ite_self]
  · have same : tx.contents = { tx with ringct := tx.ringct.contents } := by
      unfold contents
      rw [if_neg short]
    have follows := (seq_valid.mp (map_valid.mp valid)).2
    rw [ringct_of_not_short short, ← (rctData_contents _ _).2] at follows
    rw [same]
    by_cases null : tx.ringct.contents.type = .null
    · unfold expandTransaction
      rw [if_pos null, ite_self, ite_self]
    · obtain ⟨commits, amounts, proofs, clsags, pseudo⟩ := rctData_sizes follows null
      unfold expandTransaction
      rw [if_neg null, if_neg (not_not.mpr (show _ = tx.vout.length from commits)), if_neg (not_not.mpr proofs),
        if_neg (not_not.mpr (pseudo.trans clsags.symm)),
        if_neg (not_not.mpr (commits.trans amounts.symm)), ite_self, ite_self]

/-! ## What is read -/

theorem point_whole : point.Whole :=
  fun _ _ found => found

theorem scalar_whole : scalar.Whole :=
  fun _ _ found => found

theorem scalar_needs : scalar.Needs :=
  rfl

/-- The two counts of a range proof are followed by a scalar. -/
theorem bulletproof_whole : bulletproof.Whole := by
  apply Whole.guard
  apply Whole.map
  refine .seq point_whole fun _ => .seq point_whole fun _ => .seq point_whole fun _ =>
    .seq point_whole fun _ => .seq scalar_whole fun _ => .seq scalar_whole fun _ => ?_
  refine .seq_of_needs (fun _ => .seq_right fun _ => .seq_left scalar_needs) fun _ => ?_
  refine .seq_of_needs (fun _ => .seq_left scalar_needs) fun _ => ?_
  exact .seq scalar_whole fun _ => .seq scalar_whole fun _ => scalar_whole

theorem clsag_needs (mixin : Nat) : (clsag mixin).Needs :=
  .map (.seq_left (.many scalar_needs (Nat.succ_ne_zero mixin)))

theorem clsag_whole (mixin : Nat) : (clsag mixin).Whole :=
  .map (.seq (.many scalar_whole _) fun _ => .seq scalar_whole fun _ => point_whole)

/-- The number of range proofs is followed by a signature for each input. -/
theorem ringctPrunable_whole (some : inputs ≠ 0) (outputs mixin : Nat) :
    (ringctPrunable inputs outputs mixin).Whole := by
  unfold ringctPrunable
  split
  · exact .refuse
  · apply Whole.map
    apply Whole.seq_of_needs
    · intro count
      exact .seq_right fun _ => .seq_left (.many (clsag_needs mixin) some)
    · intro count
      exact .seq (.guard (.many bulletproof_whole count) _) fun _ =>
        .seq (.many (clsag_whole mixin) inputs) fun _ => .many point_whole inputs

theorem ringctPrunable_needs (some : inputs ≠ 0) (outputs mixin : Nat) :
    (ringctPrunable inputs outputs mixin).Needs := by
  unfold ringctPrunable
  split
  · rfl
  · exact .map (.seq_right fun _ => .seq_right fun _ => .seq_left (.many (clsag_needs mixin) some))

theorem rctsigBase_null {basic : RctDataBasic} (null : basic.type = .null)
    (found : (rctsigBase outputs).read false input = some (basic, rest)) :
    (rctsigBase outputs).read true input = some (basic, rest) := by
  obtain ⟨⟨⟨type, fields⟩, rest⟩, inner, same⟩ := map_eq_some_iff.mp found
  cases same
  cases null
  obtain ⟨⟨type, middle⟩, one, more⟩ := bind_eq_some_iff.mp inner
  obtain ⟨⟨fields, rest⟩, two, same⟩ := bind_eq_some_iff.mp more
  cases same
  exact map_eq_some_iff.mpr ⟨_, bind_eq_some_iff.mpr
    ⟨_, one, bind_eq_some_iff.mpr ⟨_, two, rfl⟩⟩, rfl⟩

/-- The confidential data of a transaction with inputs is there in full: its type takes a byte,
and the fee is followed by signatures. -/
theorem rctData_whole (inputs : x.vin ≠ []) : (rctData x).Whole := by
  have some : x.vin.length ≠ 0 := fun empty => inputs (length_eq_zero_iff.mp empty)
  apply Whole.map
  rintro input ⟨⟨basic, p⟩, rest⟩ found
  obtain ⟨⟨basic, middle⟩, one, more⟩ := bind_eq_some_iff.mp found
  obtain ⟨⟨p, rest⟩, two, same⟩ := bind_eq_some_iff.mp more
  cases same
  dsimp only at two
  have strict : (rctsigBase x.vout.length).read true input = .some (basic, middle) := by
    by_cases null : basic.type = .null
    · exact rctsigBase_null null one
    · rcases (rctsigBase _).cut_off one with strict | rfl
      · exact strict
      · rw [if_neg null, ringctPrunable_needs some] at two
        cases two
  refine bind_eq_some_iff.mpr ⟨_, strict, bind_eq_some_iff.mpr ⟨(p, rest), ?_, rfl⟩⟩
  dsimp only
  by_cases null : basic.type = .null
  · rw [if_pos null] at two ⊢
    exact two
  · rw [if_neg null] at two ⊢
    exact ringctPrunable_whole some _ _ _ _ two

theorem rctData_needs (x : TransactionPrefix) : (rctData x).Needs :=
  .map (.seq_left (.map (.seq_left .tag)))

/-- A transaction with confidential data is there in full. -/
theorem transaction_strict (found : transaction.read false input = some (tx, rest))
    (long : ¬ (tx.version = 1 ∨ tx.vin = [])) : transaction.read true input = some (tx, rest) := by
  obtain ⟨⟨⟨x, data⟩, rest⟩, inner, same⟩ := map_eq_some_iff.mp found
  cases same
  obtain ⟨⟨x, middle⟩, one, more⟩ := bind_eq_some_iff.mp inner
  obtain ⟨⟨data, rest⟩, two, same⟩ := bind_eq_some_iff.mp more
  cases same
  have inputs : x.vin ≠ [] := fun empty => long (.inr empty)
  rw [ringct_of_not_short long] at two
  refine map_eq_some_iff.mpr ⟨((x, data), rest), ?_, rfl⟩
  refine bind_eq_some_iff.mpr
    ⟨(x, middle), ?_, bind_eq_some_iff.mpr ⟨(data, rest), ?_, rfl⟩⟩
  · rcases transactionPrefix.cut_off one with strict | rfl
    · exact strict
    · rw [rctData_needs x] at two
      cases two
  · rw [ringct_of_not_short long]
    exact rctData_whole inputs _ _ two

end Format

variable {tx : Transaction} {blob : List UInt8}

theorem expandTransaction_eq {other : Transaction} (expanded : expandTransaction tx = some other) :
    tx = other := by
  unfold expandTransaction at expanded
  grind

/-! ## Blobs -/

theorem maybeTxFromBlob_of_toBlob (range : tx.InRange) (written : maybeTxToBlob tx = some blob) :
    maybeTxFromBlob blob = some tx.contents := by
  obtain ⟨valid, rfl⟩ := BinaryFormat.encode_eq_some.mp written
  obtain ⟨sameWrite, sameValid⟩ := transaction_contents tx
  have decoded := BinaryFormat.decode_write false (Format.transaction_fits range)
    (sameValid.trans valid)
  rw [sameWrite] at decoded
  unfold maybeTxFromBlob
  rw [decoded]
  exact expandTransaction_contents valid

theorem maybeBlockFromBlob_of_toBlob {b : Block} (range : b.InRange)
    (written : maybeBlockToBlob b = some blob) : maybeBlockFromBlob blob = some b.contents := by
  obtain ⟨valid, rfl⟩ := BinaryFormat.encode_eq_some.mp written
  obtain ⟨sameWrite, sameValid⟩ := block_contents b
  have decoded := BinaryFormat.decode_write false (Format.block_fits range) (sameValid.trans valid)
  rwa [sameWrite] at decoded

theorem Transaction.not_short (version : tx.version = 2) (inputs : tx.vin ≠ []) :
    ¬ (tx.version = 1 ∨ tx.vin = []) := by
  rintro (one | empty)
  · rw [version] at one
    cases one
  · exact inputs empty

theorem maybeTxToBlob_of_fromBlob (version : tx.version = 2) (inputs : tx.vin ≠ [])
    (found : maybeTxFromBlob blob = some tx) : maybeTxToBlob tx = some blob := by
  obtain ⟨other, decoded, expanded⟩ := bind_eq_some_iff.mp found
  cases expandTransaction_eq expanded
  apply BinaryFormat.encode_of_decode
  rw [BinaryFormat.decode_eq_some] at decoded ⊢
  exact transaction_strict decoded (not_short version inputs)

/-- The end of the blob cuts off no variable length integer of the block in it. -/
def Block.NotCutOff (blob : List UInt8) : Prop :=
  (Format.block.read true blob).isSome = true

/-- Objects survive being written and read. A transaction is read only from what is written for
it; a block is, exactly where the end of the blob cuts off no variable length integer. -/
theorem wireFormat_canonical_iff (tx : Transaction) (b : Block) (blob : List UInt8) :
    (tx.InRange → tx.vin ≠ [] → maybeTxToBlob tx = some blob →
      maybeTxFromBlob blob = some tx.contents) ∧
    (b.InRange → maybeBlockToBlob b = some blob → maybeBlockFromBlob blob = some b.contents) ∧
    (maybeTxFromBlob blob = some tx → tx.version = 2 → tx.vin ≠ [] → maybeTxToBlob tx = some blob) ∧
    (maybeBlockFromBlob blob = some b →
      (maybeBlockToBlob b = some blob ↔ Block.NotCutOff blob)) := by
  refine ⟨?_, ?_, ?_, ?_⟩
  · intro range _ written
    exact maybeTxFromBlob_of_toBlob range written
  · intro range written
    exact maybeBlockFromBlob_of_toBlob range written
  · intro found version inputs
    exact maybeTxToBlob_of_fromBlob version inputs found
  · intro found
    exact BinaryFormat.encode_of_decode_iff found

/-- A transaction with one ring of one member and one output. -/
def oneRingTx : Transaction where
  version := 2
  unlockHeight := 0
  vin := [.fromKey { amount := 0, outputRelativeOffsets := [7], outputKeyImage := 1 }]
  vout := [{ amount := 0, outputPublicKey := 2 }]
  extra := [1]
  ringct :=
    { type := .clsag
      ecdhEncryptedData := [3]
      outputCommits := [4]
      fee := 200
      p :=
        { bulletproofs :=
            [{ A := 5, S := 5, T1 := 5, T2 := 5, tau := 6, mu := 6, L := List.replicate 6 5,
               R := List.replicate 6 5, a := 6, b := 6, t := 6 }]
          clsags := [{ s := [8], c1 := 9, blindingFactorSurplusKeyImage := 10 }]
          pseudoInputCommits := [11] } }

/-- A block with a reward and no transactions. -/
def rewardBlock : Block where
  majorVersion := 1
  minorVersion := 1
  timestamp := 300
  prevId := 12
  nonce := 13
  minerTx :=
    { version := 2
      unlockHeight := 60
      vin := [.gen 0]
      vout := [{ amount := 1000, outputPublicKey := 2 }]
      extra := []
      ringct := .new }
  txHashes := []

theorem oneRingTx_inRange : oneRingTx.InRange where
  txPrefix :=
    { version := by decide
      unlockHeight := by decide
      vin := forall_mem_singleton.mpr ⟨by decide, by decide, by decide, by decide⟩
      vout := forall_mem_singleton.mpr ⟨by decide, by decide⟩
      sizes := by decide }
  ringct :=
    { fee := by decide
      ecdhEncryptedData := by decide
      outputCommits := by decide
      p :=
        { bulletproofs := forall_mem_singleton.mpr ⟨by decide, by decide, by decide⟩
          count := by decide
          clsags := forall_mem_singleton.mpr ⟨by decide, by decide, by decide⟩
          pseudoInputCommits := by decide } }

theorem rewardBlock_inRange : rewardBlock.InRange where
  header := ⟨by decide, by decide, by decide, by decide, by decide⟩
  minerTx :=
    { txPrefix :=
        { version := by decide
          unlockHeight := by decide
          vin := forall_mem_singleton.mpr (show 0 < 2 ^ 64 by decide)
          vout := forall_mem_singleton.mpr ⟨by decide, by decide⟩
          sizes := by decide }
      ringct :=
        { fee := by decide
          ecdhEncryptedData := by decide
          outputCommits := by decide
          p := ⟨forall_mem_nil _, by decide, forall_mem_nil _, by decide⟩ } }
  txHashes := forall_mem_nil _
  size := by decide

theorem wireFormat_canonical_sample :
    maybeTxFromBlob (Format.transaction.write oneRingTx) = some oneRingTx ∧
      maybeTxToBlob oneRingTx = some (Format.transaction.write oneRingTx) ∧
      maybeBlockFromBlob (Format.block.write rewardBlock) = some rewardBlock ∧
      Block.NotCutOff (Format.block.write rewardBlock) := by
  obtain ⟨txs, -, txBlobs, -⟩ :=
    wireFormat_canonical_iff oneRingTx rewardBlock (transaction.write oneRingTx)
  obtain ⟨-, blocks, -, blockBlobs⟩ :=
    wireFormat_canonical_iff oneRingTx rewardBlock (block.write rewardBlock)
  have tx := txs oneRingTx_inRange (cons_ne_nil _ _) (by decide +kernel)
  have block := blocks rewardBlock_inRange (by decide +kernel)
  exact ⟨tx, txBlobs tx rfl (cons_ne_nil _ _), block, (blockBlobs block).mp (by decide +kernel)⟩

/-- Without its last byte, the number of transaction hashes, the blob gives the same block. -/
theorem rewardBlock_two_blobs :
    maybeBlockToBlob rewardBlock = some (Format.block.write rewardBlock) ∧
      maybeBlockFromBlob (Format.block.write rewardBlock) = some rewardBlock ∧
      maybeBlockFromBlob (Format.block.write rewardBlock).dropLast = some rewardBlock ∧
      (Format.block.write rewardBlock).dropLast ≠ Format.block.write rewardBlock := by
  decide +kernel

end Memero
