import Memero.Basic.Varint
import Memero.Lib.Word

/-!
# The wire format

The serialisers of `cryptonote/basic/functional/base.hpp` and
`math/ringct/functional/rctTypesUnsafe.hpp`, and the functions of
`cryptonote/basic/functional/format_utils.cpp` between objects and blobs. The program has one
template for writing and reading each type; so a type has one format here, with the fields in
the order of the template.
-/

namespace Memero

/-- `transaction_prefix`. -/
structure TransactionPrefix where
  version : Nat
  unlockHeight : Nat
  vin : List TxIn
  vout : List TxOut
  extra : List UInt8
  deriving DecidableEq, Repr

/-- `rctDataBasic` as serialised. -/
structure RctDataBasic where
  type : RctType
  fee : Nat
  ecdhEncryptedData : List Nat
  outputCommits : List EcPoint
  deriving DecidableEq, Repr

/-- `block_header`. -/
structure BlockHeader where
  majorVersion : Nat
  minorVersion : Nat
  timestamp : Nat
  prevId : Hash
  nonce : Nat
  deriving DecidableEq, Repr

def Transaction.txPrefix (tx : Transaction) : TransactionPrefix where
  version := tx.version
  unlockHeight := tx.unlockHeight
  vin := tx.vin
  vout := tx.vout
  extra := tx.extra

def RctData.basic (x : RctData) : RctDataBasic where
  type := x.type
  fee := x.fee
  ecdhEncryptedData := x.ecdhEncryptedData
  outputCommits := x.outputCommits

def Block.header (b : Block) : BlockHeader where
  majorVersion := b.majorVersion
  minorVersion := b.minorVersion
  timestamp := b.timestamp
  prevId := b.prevId
  nonce := b.nonce

namespace Format

open BinaryFormat

/-! ## Numbers and blobs -/

def varint64 : BinaryFormat Nat :=
  varint 64 (by decide) (by decide)

def varint32 : BinaryFormat Nat :=
  varint 32 (by decide) (by decide)

def varint8 : BinaryFormat Nat :=
  varint 8 (by decide) (by decide)

variable (x i : Nat)

theorem varint64_write : varint64.write i = writeVarint i :=
  rfl

theorem varint8_write : varint8.write i = writeVarint i :=
  rfl

/-- An integer or blob of `width` bytes whose first byte is the lowest. -/
def little (width : Nat) : BinaryFormat Nat :=
  .fixed width (littleEndian width) (fun bytes => ofBigEndian bytes.reverse) (· < 256 ^ width)
    (littleEndian_length width) (fun _ => ofBigEndian_littleEndian) fun bytes length => by
      constructor
      · have below := ofBigEndian_lt bytes.reverse
        rwa [List.length_reverse, length] at below
      · exact littleEndian_ofBigEndian length

theorem little_write (width value : Nat) : (little width).write value = littleEndian width value :=
  rfl

/-- A hash or a scalar. -/
def scalar : BinaryFormat Nat :=
  little 32

/-- A `uint64_t` that is not a varint, or a `hash8`. -/
def uint64 : BinaryFormat Nat :=
  little 8

theorem scalar_write : scalar.write x = littleEndian 32 x :=
  little_write 32 x

theorem uint64_write : uint64.write x = littleEndian 8 x :=
  little_write 8 x

/-- A point or a key image. -/
def point : BinaryFormat EcPoint :=
  .fixed 32 blob ofBigEndian (· < 256 ^ 32) (bigEndian_length 32) (fun _ => ofBigEndian_bigEndian)
    fun bytes length => by
      constructor
      · have below := ofBigEndian_lt bytes
        rwa [length] at below
      · have same := bigEndian_ofBigEndian bytes
        rwa [length] at same

/-- A `uint8_t`. -/
def uint8 : BinaryFormat UInt8 :=
  .fixed 1 (fun byte => [byte]) (fun bytes => bytes.headD 0) (fun _ => True) (fun _ => rfl)
    (fun _ _ => rfl) fun bytes length => by
      obtain ⟨byte, rfl⟩ := List.length_eq_one_iff.mp length
      exact ⟨trivial, rfl⟩

theorem point_write_length (x : EcPoint) : (point.write x).length = 32 :=
  bigEndian_length 32 x

theorem point_write_ne_nil (x : EcPoint) : point.write x ≠ [] := by
  apply List.ne_nil_of_length_pos
  rw [point_write_length]
  decide

theorem scalar_write_ne_nil : scalar.write x ≠ [] := by
  apply List.ne_nil_of_length_pos
  rw [scalar_write, littleEndian_length]
  decide

/-! ## Inputs and outputs -/

/-- The alternatives of `txin_v`. -/
inductive InputTag where
  | gen
  | fromKey
  deriving DecidableEq, Repr

def inputTag : BinaryFormat InputTag :=
  .tag (fun | .gen => 0xff | .fromKey => 0x02)
    (fun byte => if byte = 0xff then some .gen else if byte = 0x02 then some .fromKey else none)
    fun byte x => by
      cases x with
      | gen =>
        by_cases gen : byte = 0xff
        · simp [gen]
        · simp [gen, Ne.symm gen]
      | fromKey =>
        by_cases gen : byte = 0xff
        · simp [gen]
        · by_cases fromKey : byte = 0x02
          · simp [fromKey]
          · simp [gen, fromKey, Ne.symm fromKey]

/-- `txin_gen`. -/
def txinGen : BinaryFormat TxIn :=
  varint64.map TxIn.gen (fun | .gen height => height | .fromKey _ => 0) fun _ _ _ => rfl

/-- `txin_from_key`. -/
def txinFromKey : BinaryFormat TxIn :=
  (varint64.seq fun _ => (varint64.vector varint64 writeVarint_ne_nil).seq fun _ => point).map
    (fun (amount, offsets, image) => .fromKey
      { amount := amount, outputRelativeOffsets := offsets, outputKeyImage := image })
    (fun
      | .fromKey x => (x.amount, x.outputRelativeOffsets, x.outputKeyImage)
      | .gen _ => (0, [], 0))
    fun _ _ _ => rfl

def inputTagOf : TxIn → InputTag
  | .gen _ => .gen
  | .fromKey _ => .fromKey

/-- `txin_v`. -/
def txIn : BinaryFormat TxIn :=
  (inputTag.seq fun | .gen => txinGen | .fromKey => txinFromKey).map Prod.snd
    (fun x => (inputTagOf x, x)) fun pair fits _ => by
      obtain ⟨tag, x⟩ := pair
      cases tag with
      | gen =>
        have built : TxIn.gen _ = x := fits.2.2
        rw [← built]
        rfl
      | fromKey =>
        have built : TxIn.fromKey _ = x := fits.2.2
        rw [← built]
        rfl

/-- The tag of `txout_to_key`, the only alternative. -/
def targetTag : BinaryFormat Unit :=
  .tag (fun _ => 0x02) (fun byte => if byte = 0x02 then some () else none) fun byte _ => by
    by_cases target : byte = 0x02
    · simp [target]
    · simp [target, Ne.symm target]

/-- `tx_out`. -/
def txOut : BinaryFormat TxOut :=
  (varint64.seq fun _ => targetTag.seq fun _ => point).map
    (fun (amount, _, key) => { amount := amount, outputPublicKey := key })
    (fun x => (x.amount, (), x.outputPublicKey)) fun _ _ _ => rfl

theorem uint8_write_ne_nil (x : UInt8) : uint8.write x ≠ [] :=
  List.cons_ne_nil _ _

theorem txIn_write_ne_nil (x : TxIn) : txIn.write x ≠ [] :=
  List.cons_ne_nil _ _

theorem txOut_write_ne_nil (x : TxOut) : txOut.write x ≠ [] :=
  List.append_ne_nil_of_left_ne_nil (writeVarint_ne_nil x.amount) _

/-- `transaction_prefix`. -/
def transactionPrefix : BinaryFormat TransactionPrefix :=
  ((varint64.guard (· ≠ 0)).seq fun _ => varint64.seq fun _ =>
    (txIn.vector varint64 txIn_write_ne_nil).seq fun _ =>
      (txOut.vector varint64 txOut_write_ne_nil).seq fun _ =>
        uint8.vector varint64 uint8_write_ne_nil).map
    (fun (version, unlockHeight, vin, vout, extra) =>
      { version := version, unlockHeight := unlockHeight, vin := vin, vout := vout, extra := extra })
    (fun x => (x.version, x.unlockHeight, x.vin, x.vout, x.extra)) fun _ _ _ => rfl

/-! ## Ring confidential data -/

def rctType : BinaryFormat RctType :=
  .tag (fun | .null => 0 | .clsag => 5)
    (fun byte => if byte = 0 then some .null else if byte = 5 then some .clsag else none)
    fun byte x => by
      cases x with
      | null =>
        by_cases null : byte = 0
        · simp [null]
        · simp [null, Ne.symm null]
      | clsag =>
        by_cases null : byte = 0
        · simp [null]
        · by_cases clsag : byte = 5
          · simp [clsag]
          · simp [null, clsag, Ne.symm clsag]

/-- `serialize_rctsig_base`. -/
def rctsigBase (outputs : Nat) : BinaryFormat RctDataBasic :=
  (rctType.seq fun
    | .null => .constant (0, [], [])
    | .clsag => varint64.seq fun _ => (uint64.many outputs).seq fun _ => point.many outputs).map
    (fun (type, fee, ecdh, commits) =>
      { type := type, fee := fee, ecdhEncryptedData := ecdh, outputCommits := commits })
    (fun x => (x.type, x.fee, x.ecdhEncryptedData, x.outputCommits)) fun _ _ _ => rfl

/-- `Bulletproof_unsafe`. -/
def bulletproof : BinaryFormat BulletproofUnsafe :=
  ((point.seq fun _ => point.seq fun _ => point.seq fun _ => point.seq fun _ =>
    scalar.seq fun _ => scalar.seq fun _ =>
      (point.vector varint64 point_write_ne_nil).seq fun _ =>
        (point.vector varint64 point_write_ne_nil).seq fun _ =>
          scalar.seq fun _ => scalar.seq fun _ => scalar).map
    (fun (A, S, T1, T2, tau, mu, L, R, a, b, t) =>
      { A := A, S := S, T1 := T1, T2 := T2, tau := tau, mu := mu, L := L, R := R, a := a, b := b,
        t := t })
    (fun x => (x.A, x.S, x.T1, x.T2, x.tau, x.mu, x.L, x.R, x.a, x.b, x.t))
    fun _ _ _ => rfl).guard fun x => !x.L.isEmpty && x.L.length == x.R.length

/-- `n_bulletproof_max_commit_size`. The shift is of an `int`; for fewer than six pairs its
count is out of range, and the processor takes it modulo 32. -/
def nBulletproofMaxCommitSize (proof : BulletproofUnsafe) : Nat :=
  let count := Word.sub 64 proof.L.length 6 % 32
  if count = 31 then 2 ^ 64 - 2 ^ 31 else 2 ^ count

/-- `clsag_unsafe` inside of `serialize_ringct_prunable`. -/
def clsag (mixin : Nat) : BinaryFormat ClsagUnsafe :=
  ((scalar.many (mixin + 1)).seq fun _ => scalar.seq fun _ => point).map
    (fun (s, c1, image) => { s := s, c1 := c1, blindingFactorSurplusKeyImage := image })
    (fun x => (x.s, x.c1, x.blindingFactorSurplusKeyImage)) fun _ _ _ => rfl

/-- `serialize_ringct_prunable` for `RCTTypeCLSAG`. -/
def ringctPrunable (inputs outputs mixin : Nat) : BinaryFormat RctDataPrunable :=
  if inputs ≥ 0xffffffff ∨ outputs ≥ 0xffffffff ∨ mixin ≥ 0xffffffff then
    .refuse
  else
    ((varint32.guard fun numberOfRangeProofs =>
        decide (numberOfRangeProofs ≤ outputs) && numberOfRangeProofs == 1).seq
      fun numberOfRangeProofs =>
        ((bulletproof.many numberOfRangeProofs).guard fun proofs =>
          proofs.all fun proof => decide (outputs ≤ nBulletproofMaxCommitSize proof)).seq
        fun _ => ((clsag mixin).many inputs).seq fun _ => point.many inputs).map
      (fun (_, proofs, clsags, commits) =>
        { bulletproofs := proofs, clsags := clsags, pseudoInputCommits := commits })
      (fun x => (x.bulletproofs.length, x.bulletproofs, x.clsags, x.pseudoInputCommits))
      fun parts _ valid => by
        obtain ⟨count, proofs, clsags, commits⟩ := parts
        have many := (Bool.and_eq_true_iff.mp (Bool.and_eq_true_iff.mp valid).2).1
        have length := (Bool.and_eq_true_iff.mp (Bool.and_eq_true_iff.mp many).1).1
        rw [beq_iff_eq.mp length]

end Format

/-- The mixin that the serialiser passes on. -/
def TransactionPrefix.mixin (x : TransactionPrefix) : Nat :=
  match x.vin with
  | .fromKey input :: _ => Word.sub 64 input.outputRelativeOffsets.length 1
  | _ => 0

namespace Format

/-- The confidential data of a transaction that has some. -/
def rctData (x : TransactionPrefix) : BinaryFormat RctData :=
  ((rctsigBase x.vout.length).seq fun basic =>
    if basic.type = .null then .constant RctData.new.p
    else ringctPrunable x.vin.length x.vout.length x.mixin).map
    (fun (basic, p) =>
      { type := basic.type
        ecdhEncryptedData := basic.ecdhEncryptedData
        outputCommits := basic.outputCommits
        fee := basic.fee
        p := p })
    (fun x => (x.basic, x.p)) fun _ _ _ => rfl

/-- What follows the prefix of a transaction. -/
def ringct (x : TransactionPrefix) : BinaryFormat RctData :=
  if x.version = 1 ∨ x.vin = [] then .constant .new else rctData x

/-- `transaction`. -/
def transaction : BinaryFormat Transaction :=
  (transactionPrefix.seq ringct).map (fun (x, ringct) =>
      { version := x.version
        unlockHeight := x.unlockHeight
        vin := x.vin
        vout := x.vout
        extra := x.extra
        ringct := ringct })
    (fun tx => (tx.txPrefix, tx.ringct)) fun _ _ _ => rfl

/-- `block_header`. -/
def blockHeader : BinaryFormat BlockHeader :=
  (varint8.seq fun _ => varint8.seq fun _ => varint64.seq fun _ => scalar.seq fun _ => uint64).map
    (fun (major, minor, timestamp, prevId, nonce) =>
      { majorVersion := major, minorVersion := minor, timestamp := timestamp, prevId := prevId,
        nonce := nonce })
    (fun x => (x.majorVersion, x.minorVersion, x.timestamp, x.prevId, x.nonce)) fun _ _ _ => rfl

/-- `block`, with `CRYPTONOTE_MAX_TX_PER_BLOCK`. -/
def block : BinaryFormat Block :=
  ((blockHeader.seq fun _ => transaction.seq fun _ =>
    scalar.vector varint64 scalar_write_ne_nil).map
    (fun (x, minerTx, txHashes) =>
      { majorVersion := x.majorVersion
        minorVersion := x.minorVersion
        timestamp := x.timestamp
        prevId := x.prevId
        nonce := x.nonce
        minerTx := minerTx
        txHashes := txHashes })
    (fun b => (b.header, b.minerTx, b.txHashes)) fun _ _ _ => rfl).guard
      fun b => decide (b.txHashes.length ≤ 0x10000000)

end Format

/-! ## Objects and blobs -/

/-- `maybe_block_to_blob`. -/
def maybeBlockToBlob (b : Block) : Option (List UInt8) :=
  Format.block.encode b

/-- `maybe_tx_to_blob`. -/
def maybeTxToBlob (tx : Transaction) : Option (List UInt8) :=
  Format.transaction.encode tx

/-- `maybe_block_from_blob`. -/
def maybeBlockFromBlob (blob : List UInt8) : Option Block :=
  Format.block.decode false blob

/-- `expand_transaction`. -/
def expandTransaction (tx : Transaction) : Option Transaction :=
  if tx.version < 2 then
    some tx
  else if tx.isCoinbase then
    some tx
  else if tx.ringct.type = .null then
    some tx
  else if tx.ringct.outputCommits.length ≠ tx.vout.length then
    none
  -- `maybeSizeCheckedRctData`
  else if tx.ringct.p.bulletproofs.length ≠ 1 then
    none
  else if tx.ringct.p.pseudoInputCommits.length ≠ tx.ringct.p.clsags.length then
    none
  else if tx.ringct.outputCommits.length ≠ tx.ringct.ecdhEncryptedData.length then
    none
  else
    some tx

/-- `maybe_tx_from_blob`. -/
def maybeTxFromBlob (blob : List UInt8) : Option Transaction :=
  (Format.transaction.decode false blob).bind expandTransaction

end Memero
