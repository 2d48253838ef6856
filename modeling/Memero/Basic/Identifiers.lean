import Memero.Basic.RoundTrip
import Memero.Basic.TreeHash
import Memero.Lib.Exec

/-!
# Identifiers

The identifiers of transactions and blocks, from `cryptonote/basic/functional/format_utils.cpp`.
A version 2 transaction is hashed in three parts, cut out of its blob at the sizes that the
serialiser has left in the object; these are of 32 bits. A block is hashed through its header, the
tree hash of its transactions and their number.

Identifiers bind what they identify, as far as the hash function tells apart the strings that are
hashed on the way. The parts of a transaction cover its blob wherever the cuts fall.
-/

namespace Memero

open List Word Format Transaction BinaryFormat

section Identifiers

variable (sha3 : List UInt8 → Hash)

/-- `t_serializable_object_to_blob`. -/
def toBlob {α : Type} (format : BinaryFormat α) (x : α) : Except HashError (List UInt8) :=
  match format.encode x with
  | some bytes => .ok bytes
  | none => .error .notSerialised

/-- `get_object_hash`. -/
def getObjectHash {α : Type} (format : BinaryFormat α) (x : α) : Except HashError Hash :=
  return sha3 (← toBlob format x)

/-! ## Transactions -/

/-- `get_transaction_prefix_hash`. -/
def getTransactionPrefixHash (x : TransactionPrefix) : Except HashError Hash :=
  getObjectHash sha3 Format.transactionPrefix x

/-- `prefix_size` after the transaction is serialised. -/
def Transaction.prefixSize (tx : Transaction) : Nat :=
  Word.wrap 32 (Format.transactionPrefix.write tx.txPrefix).length

/-- `prefix_and_ringct_basic_size` after the transaction is serialised. -/
def Transaction.prefixAndRingctBasicSize (cached : Nat) (tx : Transaction) : Nat :=
  if tx.version = 1 then
    tx.prefixSize
  else if tx.vin = [] then
    -- not set; the object keeps what it had
    cached
  else
    Word.wrap 32 ((Format.transactionPrefix.write tx.txPrefix).length +
      ((Format.rctsigBase tx.vout.length).write tx.ringct.basic).length)

/-- `std::string::substr`. -/
def substr (blob : List UInt8) (start length : Nat) : Except HashError (List UInt8) :=
  if start > blob.length then .error .outOfRange else .ok ((blob.drop start).take length)

/-- `calculate_transaction_prunable_hash`. -/
def calculateTransactionPrunableHash (cached : Nat) (tx : Transaction) (blob : List UInt8) :
    Except HashError Hash :=
  if tx.version = 1 then
    .error .prunableOfVersionOne
  else if ¬ tx.prefixAndRingctBasicSize cached ≤ blob.length then
    .error .inconsistentSizes
  else
    .ok (sha3 (blob.drop (tx.prefixAndRingctBasicSize cached)))

/-- `get_transaction_hash`. The check of the sizes before the second part only logs. -/
def getTransactionHash (cached : Nat) (tx : Transaction) : Except HashError Hash :=
  if tx.version = 1 then
    getObjectHash sha3 Format.transaction tx
  else do
    let prefixHash ← getTransactionPrefixHash sha3 tx.txPrefix
    let blob ← toBlob Format.transaction tx
    let basic ← substr blob tx.prefixSize
      (Word.sub 32 (tx.prefixAndRingctBasicSize cached) tx.prefixSize)
    let prunableHash ←
      if tx.ringct.type = .null then .ok 0
      else calculateTransactionPrunableHash sha3 cached tx blob
    return sha3 (scalarBlob prefixHash ++ (scalarBlob (sha3 basic) ++ scalarBlob prunableHash))

/-! ## Blocks -/

/-- `get_tx_tree_hash` of a block. -/
def getBlockTreeHash (cached : Nat) (b : Block) : Except HashError Hash := do
  let h ← getTransactionHash sha3 cached b.minerTx
  getTxTreeHash sha3 (h :: b.txHashes)

/-- `get_mining_blob_tail`. -/
def getMiningBlobTail (cached : Nat) (b : Block) : Except HashError (List UInt8) := do
  let treeRootHash ← getBlockTreeHash sha3 cached b
  return scalarBlob treeRootHash ++ writeVarint (Word.add 64 b.txHashes.length 1)

/-- `get_mining_blob_head`. -/
def getMiningBlobHead (b : Block) : Except HashError (List UInt8) :=
  toBlob Format.blockHeader b.header

/-- `get_mining_blob`. -/
def getMiningBlob (cached : Nat) (b : Block) : Except HashError (List UInt8) :=
  return (← getMiningBlobHead b) ++ (← getMiningBlobTail sha3 cached b)

/-- A `std::string` as it is serialised. -/
def Format.string : BinaryFormat (List UInt8) :=
  Format.uint8.vector Format.varint64 Format.uint8_write_ne_nil

/-- `get_block_hash`. -/
def getBlockHash (cached : Nat) (b : Block) : Except HashError Hash := do
  let blob ← getMiningBlob sha3 cached b
  getObjectHash sha3 Format.string blob

/-! ## The strings that are hashed -/

/-- The second part of a transaction. -/
def Transaction.basicPart (cached : Nat) (tx : Transaction) : List UInt8 :=
  ((Format.transaction.write tx).drop tx.prefixSize).take
    (Word.sub 32 (tx.prefixAndRingctBasicSize cached) tx.prefixSize)

/-- The third part of a transaction. -/
def Transaction.prunablePart (cached : Nat) (tx : Transaction) : List UInt8 :=
  (Format.transaction.write tx).drop (tx.prefixAndRingctBasicSize cached)

/-- The hashes of the parts. -/
def Transaction.partHashes (cached : Nat) (tx : Transaction) : List UInt8 :=
  scalarBlob (sha3 (Format.transactionPrefix.write tx.txPrefix)) ++
    (scalarBlob (sha3 (tx.basicPart cached)) ++
      scalarBlob (if tx.ringct.type = .null then 0 else sha3 (tx.prunablePart cached)))

/-- The strings that are hashed for a transaction, if it is not of version 1. -/
def Transaction.hashedStrings (cached : Nat) (tx : Transaction) : List (List UInt8) :=
  [Format.transactionPrefix.write tx.txPrefix, tx.basicPart cached, tx.partHashes sha3 cached] ++
    if tx.ringct.type = .null then [] else [tx.prunablePart cached]

/-- The strings that are hashed for a block, if its reward is not of version 1. -/
def Block.hashedStrings (cached : Nat) (b : Block) : List (List UInt8) :=
  b.minerTx.hashedStrings sha3 cached ++
    treeStrings sha3 (sha3 (b.minerTx.partHashes sha3 cached) :: b.txHashes) ++
    match getMiningBlob sha3 cached b with
    | .ok blob => [Format.string.write blob]
    | .error _ => []

/-- The hash function tells the strings apart, and sends none of 4 GiB or more to `null_hash`. -/
structure TellsApart (strings : List (List UInt8)) : Prop where
  injective : ∀ s ∈ strings, ∀ t ∈ strings, sha3 s = sha3 t → s = t
  null : ∀ s ∈ strings, 2 ^ 32 ≤ s.length → sha3 s ≠ 0

variable {sha3}

theorem TellsApart.mono {some strings : List (List UInt8)} (apart : TellsApart sha3 strings)
    (subset : some ⊆ strings) : TellsApart sha3 some where
  injective s inS t inT := apart.injective s (subset inS) t (subset inT)
  null s inS := apart.null s (subset inS)

/-! ## Cuts -/

theorem length_middle (P B Q : List UInt8) :
    (((P ++ (B ++ Q)).drop (wrap 32 P.length)).take (wrap 32 B.length)).length =
      wrap 32 B.length := by
  have first := @wrap_le 32 P.length
  have second := @wrap_le 32 B.length
  simp only [length_take, length_drop, length_append]
  omega

/-- Two strings with one beginning, cut after it and once more, where the positions are kept in
32 bits: if they agree between the cuts and after the second, they agree. -/
theorem eq_of_cuts {P B Q C R : List UInt8}
    (middle : ((P ++ (B ++ Q)).drop (wrap 32 P.length)).take (wrap 32 B.length) =
      ((P ++ (C ++ R)).drop (wrap 32 P.length)).take (wrap 32 C.length))
    (last : (P ++ (B ++ Q)).drop (wrap 32 (P.length + B.length)) =
      (P ++ (C ++ R)).drop (wrap 32 (P.length + C.length))) :
    B ++ Q = C ++ R := by
  have width : wrap 32 B.length = wrap 32 C.length := by
    have lengths := congrArg List.length middle
    rwa [length_middle, length_middle] at lengths
  have place : wrap 32 (P.length + B.length) = wrap 32 (P.length + C.length) := by
    unfold wrap at width ⊢
    omega
  rw [← width] at middle
  rw [← place] at last
  by_cases inside : wrap 32 (P.length + B.length) ≤ P.length
  · -- the last part begins in the common beginning
    have rest := congrArg (drop (P.length - wrap 32 (P.length + B.length))) last
    rwa [drop_drop, drop_drop, Nat.add_sub_cancel' inside, drop_left, drop_left] at rest
  · -- no position was cut to 32 bits, and the parts lie side by side
    have start : wrap 32 P.length = P.length := by
      unfold wrap at inside ⊢
      omega
    have stop : wrap 32 (P.length + B.length) = P.length + wrap 32 B.length := by
      unfold wrap at inside ⊢
      omega
    rw [start, drop_left, drop_left] at middle
    rw [stop, drop_length_add_append, drop_length_add_append] at last
    rw [← take_append_drop (wrap 32 B.length) (B ++ Q), middle, last, take_append_drop]

/-! ## Transactions bind -/

theorem toBlob_eq_ok {α : Type} {format : BinaryFormat α} {x : α} {bytes : List UInt8} :
    toBlob format x = .ok bytes ↔ format.valid x = true ∧ format.write x = bytes := by
  rw [← encode_eq_some]
  unfold toBlob
  cases format.encode x <;> simp

namespace Transaction

variable {cached : Nat} {tx : Transaction}

/-- The bytes of the confidential data without its signatures. -/
def basicBlob (tx : Transaction) : List UInt8 :=
  (Format.rctsigBase tx.vout.length).write tx.ringct.basic

/-- The bytes of the signatures. -/
def prunableBlob (tx : Transaction) : List UInt8 :=
  if tx.ringct.type = .null then []
  else (Format.ringctPrunable tx.vin.length tx.vout.length tx.txPrefix.mixin).write tx.ringct.p

theorem write_eq (long : ¬ (tx.version = 1 ∨ tx.vin = [])) :
    transaction.write tx =
      transactionPrefix.write tx.txPrefix ++ (tx.basicBlob ++ tx.prunableBlob) := by
  have written : transaction.write tx = transactionPrefix.write tx.txPrefix ++
      (Format.ringct tx.txPrefix).write tx.ringct := rfl
  rw [written, ringct_of_not_short long]
  congr 1
  have split : (rctData tx.txPrefix).write tx.ringct = tx.basicBlob ++
      (if tx.ringct.type = .null then constant RctData.new.p
        else ringctPrunable tx.vin.length tx.vout.length tx.txPrefix.mixin).write
        tx.ringct.p := rfl
  rw [split]
  unfold prunableBlob
  split <;> rfl

theorem basicBlob_of_null (null : tx.ringct.type = .null) : tx.basicBlob = [0] := by
  obtain ⟨_, _, _, _, _, type, _, _, _, _⟩ := tx
  cases null
  rfl

theorem two_le_basicBlob (confidential : tx.ringct.type ≠ .null) : 2 ≤ tx.basicBlob.length := by
  unfold basicBlob
  cases data : tx.ringct.basic with
  | mk type fee ecdh commits =>
    cases type with
    | null => exact absurd (congrArg RctDataBasic.type data) confidential
    | clsag =>
      have written : (rctsigBase tx.vout.length).write ⟨.clsag, fee, ecdh, commits⟩ =
          5 :: (writeVarint fee ++ ((uint64.many tx.vout.length).seq fun _ =>
            point.many tx.vout.length).write (ecdh, commits)) := rfl
      have one := length_pos_iff.mpr (writeVarint_ne_nil fee)
      rw [written, length_cons, length_append]
      omega

section

variable (long : ¬ (tx.version = 1 ∨ tx.vin = []))
include long

theorem basicSize_eq :
    tx.prefixAndRingctBasicSize cached = wrap 32
      ((transactionPrefix.write tx.txPrefix).length + tx.basicBlob.length) := by
  rw [not_or] at long
  unfold prefixAndRingctBasicSize
  rw [if_neg long.1, if_neg long.2]
  rfl

theorem basicPart_eq :
    tx.basicPart cached =
      ((transactionPrefix.write tx.txPrefix ++ (tx.basicBlob ++ tx.prunableBlob)).drop
        (wrap 32 (transactionPrefix.write tx.txPrefix).length)).take
        (wrap 32 tx.basicBlob.length) := by
  unfold basicPart prefixSize
  rw [write_eq long, basicSize_eq long, ← add_wrap, add, sub_wrap_add]

theorem prunablePart_eq :
    tx.prunablePart cached =
      (transactionPrefix.write tx.txPrefix ++ (tx.basicBlob ++ tx.prunableBlob)).drop
        (wrap 32 ((transactionPrefix.write tx.txPrefix).length +
          tx.basicBlob.length)) := by
  unfold prunablePart
  rw [write_eq long, basicSize_eq long]

end

theorem prefixSize_le : tx.prefixSize ≤ (transaction.write tx).length := by
  have written : transaction.write tx = transactionPrefix.write tx.txPrefix ++
      (Format.ringct tx.txPrefix).write tx.ringct := rfl
  have cut := @wrap_le 32 (transactionPrefix.write tx.txPrefix).length
  rw [written, length_append]
  unfold prefixSize
  omega

section

variable (long : ¬ (tx.version = 1 ∨ tx.vin = []))
include long

theorem basicSize_le : tx.prefixAndRingctBasicSize cached ≤ (transaction.write tx).length := by
  have cut := @wrap_le 32 ((transactionPrefix.write tx.txPrefix).length + tx.basicBlob.length)
  rw [basicSize_eq long, write_eq long, length_append, length_append]
  omega

theorem getTransactionHash_eq (valid : transaction.valid tx = true) :
    Memero.getTransactionHash sha3 cached tx = .ok (sha3 (tx.partHashes sha3 cached)) := by
  have blob := toBlob_eq_ok.mpr ⟨valid, rfl⟩
  have first : getTransactionPrefixHash sha3 tx.txPrefix =
      .ok (sha3 (transactionPrefix.write tx.txPrefix)) := by
    have inner := (seq_valid.mp (map_valid.mp valid)).1
    unfold getTransactionPrefixHash getObjectHash
    rw [toBlob_eq_ok.mpr ⟨inner, rfl⟩]
    rfl
  have second : substr (transaction.write tx) tx.prefixSize
      (sub 32 (tx.prefixAndRingctBasicSize cached) tx.prefixSize) = .ok (tx.basicPart cached) :=
    if_neg (Nat.not_lt.mpr prefixSize_le)
  have third : calculateTransactionPrunableHash sha3 cached tx (transaction.write tx) =
      .ok (sha3 (tx.prunablePart cached)) := by
    unfold calculateTransactionPrunableHash
    rw [if_neg (fun one => long (.inl one)), if_neg (not_not.mpr (basicSize_le long))]
    rfl
  unfold Memero.getTransactionHash partHashes
  rw [if_neg (fun one => long (.inl one)), first, blob]
  dsimp only [bind, Except.bind]
  rw [second, third]
  dsimp only
  by_cases null : tx.ringct.type = .null
  · rw [if_pos null, if_pos null]
    rfl
  · rw [if_neg null, if_neg null]
    rfl

/-- What has been hashed when there is an identifier. -/
theorem of_getTransactionHash {id : Hash}
    (found : Memero.getTransactionHash sha3 cached tx = .ok id) :
    transaction.valid tx = true ∧ id = sha3 (tx.partHashes sha3 cached) := by
  have valid : transaction.valid tx = true := by
    by_contra invalid
    have failed : toBlob transaction tx = .error .notSerialised := by
      unfold toBlob encode
      rw [if_neg invalid]
    unfold Memero.getTransactionHash at found
    rw [if_neg (fun one => long (.inl one)), failed] at found
    cases first : getTransactionPrefixHash sha3 tx.txPrefix <;> rw [first] at found <;> cases found
  rw [getTransactionHash_eq long valid] at found
  exact ⟨valid, (Except.ok.inj found).symm⟩

end

theorem prefix_mem_hashedStrings :
    transactionPrefix.write tx.txPrefix ∈ tx.hashedStrings sha3 cached :=
  mem_append_left _ (mem_cons_self)

theorem basicPart_mem_hashedStrings : tx.basicPart cached ∈ tx.hashedStrings sha3 cached :=
  mem_append_left _ (mem_cons_of_mem _ mem_cons_self)

theorem partHashes_mem_hashedStrings : tx.partHashes sha3 cached ∈ tx.hashedStrings sha3 cached :=
  mem_append_left _ (mem_cons_of_mem _ (mem_cons_of_mem _ mem_cons_self))

theorem prunablePart_mem_hashedStrings (signed : tx.ringct.type ≠ .null) :
    tx.prunablePart cached ∈ tx.hashedStrings sha3 cached := by
  apply mem_append_right
  rw [if_neg signed]
  exact mem_cons_self

end Transaction

variable {cachedA cachedB cached : Nat} {id : Hash} {b : Block}

/-- A transaction without signatures and one with some have different parts. Sizes of 4 GiB could
make the second parts the same, but then the third part has no null hash. -/
theorem not_null_and_signed {a b : Transaction} (longA : ¬ (a.version = 1 ∨ a.vin = []))
    (longB : ¬ (b.version = 1 ∨ b.vin = [])) (null : a.ringct.type = .null)
    (signed : b.ringct.type ≠ .null)
    (large : 2 ^ 32 ≤ (b.prunablePart cachedB).length → sha3 (b.prunablePart cachedB) ≠ 0)
    (middle : a.basicPart cachedA = b.basicPart cachedB)
    (last : sha3 (b.prunablePart cachedB) = 0) : False := by
  have lengths := congrArg List.length middle
  rw [basicPart_eq longA, basicPart_eq longB, length_middle, length_middle,
    basicBlob_of_null null] at lengths
  have two := two_le_basicBlob signed
  apply large _ last
  rw [prunablePart_eq longB, length_drop, length_append, length_append]
  unfold wrap at lengths ⊢
  rw [length_singleton] at lengths
  omega

/-- Transactions with one identifier have one blob. -/
theorem write_eq_of_getTransactionHash {a b : Transaction} (bounded : ∀ s, sha3 s < 256 ^ 32)
    (longA : ¬ (a.version = 1 ∨ a.vin = [])) (longB : ¬ (b.version = 1 ∨ b.vin = []))
    (apart : TellsApart sha3 (a.hashedStrings sha3 cachedA ++ b.hashedStrings sha3 cachedB))
    (foundA : getTransactionHash sha3 cachedA a = .ok id)
    (foundB : getTransactionHash sha3 cachedB b = .ok id) :
    transaction.write a = transaction.write b := by
  obtain ⟨-, hashA⟩ := of_getTransactionHash longA foundA
  obtain ⟨-, hashB⟩ := of_getTransactionHash longB foundB
  have tells : ∀ s ∈ a.hashedStrings sha3 cachedA, ∀ t ∈ b.hashedStrings sha3 cachedB,
      sha3 s = sha3 t → s = t := fun s inA t inB =>
    apart.injective s (mem_append_left _ inA) t (mem_append_right _ inB)
  have zero : 0 < 256 ^ 32 := Nat.pow_pos (by decide)
  have parts := tells _ partHashes_mem_hashedStrings _
    partHashes_mem_hashedStrings (hashA.symm.trans hashB)
  unfold partHashes at parts
  obtain ⟨first, more⟩ := scalarBlob_append_inj (bounded _) (bounded _) parts
  obtain ⟨second, third⟩ := scalarBlob_append_inj (bounded _) (bounded _) more
  have beginning := tells _ prefix_mem_hashedStrings _
    prefix_mem_hashedStrings first
  have middle := tells _ basicPart_mem_hashedStrings _
    basicPart_mem_hashedStrings second
  have last := scalarBlob_inj (by split; exact zero; exact bounded _)
    (by split; exact zero; exact bounded _) third
  rw [write_eq longA, write_eq longB, beginning]
  apply congrArg (_ ++ ·)
  by_cases nullA : a.ringct.type = .null
  · by_cases nullB : b.ringct.type = .null
    · rw [basicBlob_of_null nullA, basicBlob_of_null nullB]
      unfold prunableBlob
      rw [if_pos nullA, if_pos nullB]
    · rw [if_pos nullA, if_neg nullB] at last
      refine (not_null_and_signed longA longB nullA nullB ?_ middle last.symm).elim
      exact apart.null _ (mem_append_right _ (prunablePart_mem_hashedStrings nullB))
  · by_cases nullB : b.ringct.type = .null
    · rw [if_neg nullA, if_pos nullB] at last
      refine (not_null_and_signed longB longA nullB nullA ?_ middle.symm last).elim
      exact apart.null _ (mem_append_left _ (prunablePart_mem_hashedStrings nullA))
    · rw [if_neg nullA, if_neg nullB] at last
      have ends := tells _ (prunablePart_mem_hashedStrings nullA) _
        (prunablePart_mem_hashedStrings nullB) last
      rw [basicPart_eq longA, basicPart_eq longB, beginning] at middle
      rw [prunablePart_eq longA, prunablePart_eq longB, beginning] at ends
      exact eq_of_cuts middle ends

/-! ## Blocks bind -/

/-- The blob that is mined, for a tree hash. -/
def Block.miningBlob (b : Block) (root : Hash) : List UInt8 :=
  Format.blockHeader.write b.header ++
    (scalarBlob root ++ writeVarint (Word.add 64 b.txHashes.length 1))

/-- What has been hashed when there is an identifier. -/
theorem Block.of_getBlockHash (found : getBlockHash sha3 cached b = .ok id) :
    ∃ h root, getTransactionHash sha3 cached b.minerTx = .ok h ∧
      getTxTreeHash sha3 (h :: b.txHashes) = .ok root ∧
      string.write (b.miningBlob root) ∈ b.hashedStrings sha3 cached ∧
      id = sha3 (string.write (b.miningBlob root)) := by
  obtain ⟨blob, mined, hashed⟩ := except_bind_eq_ok.mp found
  obtain ⟨bytes, string, done⟩ := except_bind_eq_ok.mp hashed
  obtain ⟨head, header, more⟩ := except_bind_eq_ok.mp mined
  obtain ⟨tail, rest, same⟩ := except_bind_eq_ok.mp more
  obtain ⟨root, tree, last⟩ := except_bind_eq_ok.mp rest
  obtain ⟨h, miner, leaves⟩ := except_bind_eq_ok.mp tree
  obtain ⟨-, rfl⟩ := toBlob_eq_ok.mp string
  obtain ⟨-, rfl⟩ := toBlob_eq_ok.mp header
  obtain rfl := Except.ok.inj last
  obtain rfl := Except.ok.inj same
  refine ⟨h, root, miner, leaves, ?_, (Except.ok.inj done).symm⟩
  unfold hashedStrings
  rw [mined]
  exact mem_append_right _ mem_cons_self

theorem Block.miningBlob_length_lt (b : Block) (root : Hash) :
    (b.miningBlob root).length < 2 ^ 64 := by
  have major := writeVarint_length_le b.header.majorVersion
  have minor := writeVarint_length_le b.header.minorVersion
  have timestamp := writeVarint_length_le b.header.timestamp
  have count := writeVarint_length_le (add 64 b.txHashes.length 1)
  unfold miningBlob blockHeader
  simp only [map_write, seq_write, scalar_write, uint64_write,
    varint64_write, varint8_write, length_append, littleEndian_length, scalarBlob_length]
  omega

/-- A mined blob shows the header, the tree hash and the number of transactions. -/
theorem Block.miningBlob_inj {a : Block} {root other : Hash} (rangeA : a.InRange)
    (rangeB : b.InRange) (boundA : root < 256 ^ 32) (boundB : other < 256 ^ 32)
    (same : string.write (a.miningBlob root) = string.write (b.miningBlob other)) :
    a.header = b.header ∧ root = other ∧ a.txHashes.length = b.txHashes.length := by
  have fits : ∀ (b : Block) root, string.Fits (b.miningBlob root) := fun b root =>
    vector_fits (b.miningBlob_length_lt root) fun _ _ => trivial
  have valid : ∀ x, string.valid x = true := fun x =>
    vector_valid.mpr ⟨rfl, fun _ _ => rfl⟩
  have blobs := write_inj (fits a root) (valid _) (fits b other) (valid _) same
  obtain ⟨header, rest⟩ := write_append_inj (blockHeader_fits rangeA.header) rfl
    (blockHeader_fits rangeB.header) rfl blobs
  obtain ⟨roots, counts⟩ := scalarBlob_append_inj boundA boundB rest
  have count : add 64 a.txHashes.length 1 = add 64 b.txHashes.length 1 :=
    @write_inj _ varint64 _ _ (wrap_lt _) rfl (wrap_lt _) rfl counts
  refine ⟨header, roots, ?_⟩
  have sizeA := rangeA.size
  have sizeB := rangeB.size
  unfold add wrap at count
  omega

theorem Block.minerStrings_subset :
    b.minerTx.hashedStrings sha3 cached ⊆ b.hashedStrings sha3 cached := by
  unfold hashedStrings
  rw [append_assoc]
  exact subset_append_left _ _

theorem Block.treeStrings_subset :
    treeStrings sha3 (sha3 (b.minerTx.partHashes sha3 cached) :: b.txHashes) ⊆
      b.hashedStrings sha3 cached := by
  unfold hashedStrings
  rw [append_assoc]
  exact fun _ inside => mem_append_right _ (mem_append_left _ inside)

/-- Blocks with one identifier have one header, one reward and one list of transactions. -/
theorem Block.eq_of_getBlockHash {a : Block} (bounded : ∀ s, sha3 s < 256 ^ 32) (rangeA : a.InRange)
    (rangeB : b.InRange) (longA : ¬ (a.minerTx.version = 1 ∨ a.minerTx.vin = []))
    (longB : ¬ (b.minerTx.version = 1 ∨ b.minerTx.vin = []))
    (apart : TellsApart sha3 (a.hashedStrings sha3 cachedA ++ b.hashedStrings sha3 cachedB))
    (foundA : getBlockHash sha3 cachedA a = .ok id)
    (foundB : getBlockHash sha3 cachedB b = .ok id) :
    a.header = b.header ∧
      transaction.write a.minerTx = transaction.write b.minerTx ∧
      a.txHashes = b.txHashes := by
  obtain ⟨minerA, rootA, hashA, treeA, stringA, idA⟩ := of_getBlockHash foundA
  obtain ⟨minerB, rootB, hashB, treeB, stringB, idB⟩ := of_getBlockHash foundB
  obtain ⟨-, rfl⟩ := of_getTransactionHash longA hashA
  obtain ⟨-, rfl⟩ := of_getTransactionHash longB hashB
  have leavesA : ∀ x ∈ sha3 (a.minerTx.partHashes sha3 cachedA) :: a.txHashes, x < 256 ^ 32 :=
    forall_mem_cons.mpr ⟨bounded _, rangeA.txHashes⟩
  have leavesB : ∀ x ∈ sha3 (b.minerTx.partHashes sha3 cachedB) :: b.txHashes, x < 256 ^ 32 :=
    forall_mem_cons.mpr ⟨bounded _, rangeB.txHashes⟩
  have strings := apart.injective _ (mem_append_left _ stringA) _
    (mem_append_right _ stringB) (idA.symm.trans idB)
  obtain ⟨header, rfl, count⟩ := miningBlob_inj rangeA rangeB
    (getTxTreeHash_lt bounded leavesA treeA) (getTxTreeHash_lt bounded leavesB treeB) strings
  have trees : ∀ s ∈ treeStrings sha3 (sha3 (a.minerTx.partHashes sha3 cachedA) :: a.txHashes),
      ∀ t ∈ treeStrings sha3 (sha3 (b.minerTx.partHashes sha3 cachedB) :: b.txHashes),
        sha3 s = sha3 t → s = t := fun s inA t inB =>
    apart.injective s (mem_append_left _ (treeStrings_subset inA)) t
      (mem_append_right _ (treeStrings_subset inB))
  obtain ⟨miner, txHashes⟩ := cons.inj (eq_of_getTxTreeHash bounded leavesA leavesB
    (congrArg Nat.succ count) trees treeA treeB)
  rw [← miner] at hashB
  have rewards := apart.mono (append_subset.mpr
    ⟨fun _ inA => mem_append_left _ (minerStrings_subset inA),
      fun _ inB => mem_append_right _ (minerStrings_subset inB)⟩)
  exact ⟨header, write_eq_of_getTransactionHash bounded longA longB rewards hashA hashB, txHashes⟩

theorem Block.minerTx_toBlob (long : ¬ (b.minerTx.version = 1 ∨ b.minerTx.vin = []))
    (found : getBlockHash sha3 cached b = .ok id) :
    maybeTxToBlob b.minerTx = some (transaction.write b.minerTx) := by
  obtain ⟨h, -, miner, -⟩ := of_getBlockHash found
  exact encode_eq_some.mpr ⟨(of_getTransactionHash long miner).1, rfl⟩

end Identifiers

/-- The identifier of a block binds its header, its reward and its list of transactions, and that
of a transaction binds its blob, wherever the hash function tells apart what is hashed. -/
theorem identifiers_bind (sha3 : List UInt8 → Hash) (bounded : ∀ s, sha3 s < 256 ^ 32) :
    (∀ (a b : Block) (cachedA cachedB : Nat) (id : Hash), a.InRange → b.InRange →
      a.minerTx.version = 2 → a.minerTx.vin.length = 1 →
      b.minerTx.version = 2 → b.minerTx.vin.length = 1 →
      TellsApart sha3 (a.hashedStrings sha3 cachedA ++ b.hashedStrings sha3 cachedB) →
      getBlockHash sha3 cachedA a = .ok id → getBlockHash sha3 cachedB b = .ok id →
      a.header = b.header ∧ a.minerTx.contents = b.minerTx.contents ∧ a.txHashes = b.txHashes) ∧
    ∀ (a b : Transaction) (cachedA cachedB : Nat) (id : Hash),
      a.version = 2 → a.vin ≠ [] → b.version = 2 → b.vin ≠ [] →
      TellsApart sha3 (a.hashedStrings sha3 cachedA ++ b.hashedStrings sha3 cachedB) →
      getTransactionHash sha3 cachedA a = .ok id → getTransactionHash sha3 cachedB b = .ok id →
      (maybeTxToBlob a).isSome = true ∧ maybeTxToBlob a = maybeTxToBlob b := by
  constructor
  · intro a b cachedA cachedB id rangeA rangeB versionA inputsA versionB inputsB apart foundA foundB
    have longA := not_short versionA (ne_nil_of_length_eq_add_one inputsA)
    have longB := not_short versionB (ne_nil_of_length_eq_add_one inputsB)
    obtain ⟨header, rewards, txHashes⟩ :=
      Block.eq_of_getBlockHash bounded rangeA rangeB longA longB apart foundA foundB
    refine ⟨header, ?_, txHashes⟩
    have decodedA := maybeTxFromBlob_of_toBlob rangeA.minerTx (Block.minerTx_toBlob longA foundA)
    have decodedB := maybeTxFromBlob_of_toBlob rangeB.minerTx (Block.minerTx_toBlob longB foundB)
    rw [rewards] at decodedA
    exact Option.some.inj (decodedA.symm.trans decodedB)
  · intro a b cachedA cachedB id versionA inputsA versionB inputsB apart foundA foundB
    have longA := not_short versionA inputsA
    have longB := not_short versionB inputsB
    have blobA := encode_eq_some.mpr
      ⟨(of_getTransactionHash longA foundA).1, rfl⟩
    have blobB := encode_eq_some.mpr
      ⟨(of_getTransactionHash longB foundB).1, rfl⟩
    have same := write_eq_of_getTransactionHash bounded longA longB apart foundA foundB
    unfold maybeTxToBlob
    rw [blobA, blobB, same]
    exact ⟨rfl, rfl⟩

/-- A hash of short strings by length and first byte. -/
def lengthHash (s : List UInt8) : Hash :=
  (s.length + 1000 * (s.headD 0).toNat) % 2 ^ 250

theorem lengthHash_lt (s : List UInt8) : lengthHash s < 256 ^ 32 :=
  (Nat.mod_lt _ (Nat.two_pow_pos 250)).trans (by decide)

/-- A block with two transactions. -/
def listedBlock : Block :=
  { rewardBlock with txHashes := [21, 22] }

/-- The same block, with another value in a field that is not written. -/
def staleBlock : Block :=
  { listedBlock with
    minerTx := { listedBlock.minerTx with ringct := { listedBlock.minerTx.ringct with fee := 5 } } }

theorem listedBlock_inRange : listedBlock.InRange :=
  { rewardBlock_inRange with txHashes := by decide, size := by decide }

theorem staleBlock_inRange : staleBlock.InRange :=
  { listedBlock_inRange with
    minerTx := ⟨listedBlock_inRange.minerTx.txPrefix,
      { listedBlock_inRange.minerTx.ringct with fee := by decide }⟩ }

theorem identifiers_bind_listed :
    listedBlock.header = staleBlock.header ∧
      listedBlock.minerTx.contents = staleBlock.minerTx.contents ∧
      listedBlock.txHashes = staleBlock.txHashes ∧
      (maybeTxToBlob oneRingTx).isSome = true := by
  obtain ⟨blocks, transactions⟩ := identifiers_bind lengthHash lengthHash_lt
  obtain ⟨header, minerTx, txHashes⟩ := blocks listedBlock staleBlock 0 7 77078
    listedBlock_inRange staleBlock_inRange rfl rfl rfl rfl
    ⟨by decide +kernel, by decide +kernel⟩ (by decide +kernel) (by decide +kernel)
  have blob := transactions oneRingTx oneRingTx 0 7 28096 rfl (cons_ne_nil _ _) rfl
    (cons_ne_nil _ _) ⟨by decide +kernel, by decide +kernel⟩ (by decide +kernel)
    (by decide +kernel)
  exact ⟨header, minerTx, txHashes, blob.1⟩

end Memero
