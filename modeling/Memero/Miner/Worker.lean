import Memero.Basic.Identifiers
import Memero.Consensus.Difficulty

/-!
# The miner

`cryptonote/miner/miner.cpp`. A round of the worker puts the mined blob together from the header
without its last eight bytes, the nonce and the tail, and tests the hash twice: against a quotient
and then as the chain does. The quotient is taken before the worker looks whether there is a
template at all.
-/

namespace Memero

open List

/-! ## Hashes as numbers -/

/-- `hash_to_int`: `import_bits` reads the first byte as the lowest. -/
def hashToInt (data : List UInt8) : Nat :=
  ofBigEndian data.reverse

/-- The loop of `int_to_hash`. -/
def intToHashBytes : Nat → Nat → List UInt8
  | 0, _ => []
  | more + 1, v => UInt8.ofNat v :: intToHashBytes more (v / 256)

/-- `int_to_hash`. -/
def intToHash (x : Nat) : List UInt8 :=
  intToHashBytes 32 x

/-- `check_hash`. -/
def checkHashData (hash : Hash) (difficulty : Nat) : Bool :=
  checkHash (hashToInt (scalarBlob hash)) difficulty

theorem intToHashBytes_eq (width v : Nat) : intToHashBytes width v = littleEndian width v := by
  induction width generalizing v with
  | zero => rfl
  | succ width ih =>
    rw [intToHashBytes, ih, littleEndian, littleEndian, bigEndian, reverse_append]
    rfl

/-! ## The worker -/

/-- What ends the worker. -/
inductive WorkerError where
  | divisionByZero
  | hash (error : HashError)
  deriving DecidableEq

/-- `max_int_for_diff`. -/
def maxIntForDiff (difficulty : Nat) : Except WorkerError Nat :=
  if difficulty = 0 then .error .divisionByZero else .ok ((2 ^ 256 - 1) / difficulty)

/-- The locals of `worker_thread`. -/
structure Worker where
  nonce : Nat
  b : Block
  localTemplateVer : Nat
  deriving DecidableEq

/-- The state of the miner that the worker reads. -/
structure Miner where
  stop : Bool
  pauser : Bool
  template : Block
  templateNo : Nat
  starterNonce : Nat
  diff : Nat
  blockReward : Nat
  thread : Option Worker

/-- The worker after it has looked for a new template. -/
def Worker.refresh (worker : Worker) (miner : Miner) : Worker :=
  if worker.localTemplateVer ≠ miner.templateNo then
    { nonce := miner.starterNonce, b := miner.template, localTemplateVer := miner.templateNo }
  else
    worker

/-- The template with the nonce that is tried. -/
def Worker.minedBlock (worker : Worker) : Block :=
  { worker.b with nonce := worker.nonce }

section Rounds

variable (sha3 : List UInt8 → Hash) (cached : Nat)

/-- `get_mining_hash`. -/
def getMiningHash (b : Block) : Except HashError Hash :=
  return sha3 (← getMiningBlob sha3 cached b)

/-- One round of `worker_thread`, with the block that it hands to `handle_block_found`. -/
def workerRound (miner : Miner) (worker : Worker) : Except WorkerError (Worker × Option Block) :=
  if miner.pauser then
    return (worker, none)
  else do
    let worker := worker.refresh miner
    let localDiff := miner.diff
    let maxInt ← maxIntForDiff localDiff
    let headFull ← (getMiningBlobHead worker.b).mapError .hash
    let hashingBlobHead := headFull.take (headFull.length - 8)
    let hashingBlobTail ← (getMiningBlobTail sha3 cached worker.b).mapError .hash
    if worker.localTemplateVer = 0 then
      return (worker, none)
    else
      let h := sha3 (hashingBlobHead ++ littleEndian 8 worker.nonce ++ hashingBlobTail)
      let validHash := decide (hashToInt (scalarBlob h) ≤ maxInt)
      return ({ worker with nonce := Word.add 64 worker.nonce 1 },
        if validHash && checkHashData h localDiff then some worker.minedBlock else none)

variable {sha3 cached}

/-- The quotient discards nothing that passes the product test, and nothing else. -/
theorem le_quotient_iff {difficulty : Nat} (positive : 1 ≤ difficulty) (hashInt : Nat) :
    hashInt ≤ (2 ^ 256 - 1) / difficulty ↔ checkHash hashInt difficulty = true := by
  rw [checkHash, decide_eq_true_eq, Nat.le_div_iff_mul_le positive]

/-- The serialised header ends with the nonce. -/
theorem getMiningBlobHead_nonce (b : Block) (nonce : Nat) :
    ∃ head : List UInt8, getMiningBlobHead b = .ok (head ++ littleEndian 8 b.nonce) ∧
      getMiningBlobHead { b with nonce := nonce } = .ok (head ++ littleEndian 8 nonce) := by
  refine ⟨writeVarint b.majorVersion ++ (writeVarint b.minorVersion ++
    (writeVarint b.timestamp ++ littleEndian 32 b.prevId)), ?_, ?_⟩ <;>
  · refine toBlob_eq_ok.mpr ⟨rfl, ?_⟩
    simp only [Format.blockHeader, BinaryFormat.map_write, BinaryFormat.seq_write,
      Format.varint8_write, Format.varint64_write, Format.scalar_write, Format.uint64_write,
      append_assoc, Block.header]

/-- The worker hashes the blob of the block that it would hand over. -/
theorem getMiningHash_minedBlock (worker : Worker) :
    ∃ headFull, getMiningBlobHead worker.b = .ok headFull ∧
      getMiningHash sha3 cached worker.minedBlock =
        (getMiningBlobTail sha3 cached worker.b).map fun tail =>
          sha3 (headFull.take (headFull.length - 8) ++ littleEndian 8 worker.nonce ++ tail) := by
  obtain ⟨head, before, after⟩ := getMiningBlobHead_nonce worker.b worker.nonce
  refine ⟨_, before, ?_⟩
  have cut : (head ++ littleEndian 8 worker.b.nonce).length - 8 = head.length := by
    rw [length_append, littleEndian_length, Nat.add_sub_cancel]
  rw [cut, take_left]
  unfold getMiningHash getMiningBlob Worker.minedBlock
  rw [after]
  have tail : getMiningBlobTail sha3 cached { worker.b with nonce := worker.nonce } =
      getMiningBlobTail sha3 cached worker.b := rfl
  rw [tail]
  cases getMiningBlobTail sha3 cached worker.b <;> rfl

/-- A round hands over the block with its nonce exactly if the chain's test of it succeeds, and
the numbers of hashes are the hashes. -/
theorem workerRound_tests_as_chain (sha3 : List UInt8 → Hash) (cached : Nat) {miner : Miner}
    {worker : Worker} (running : miner.pauser = false) (positive : 1 ≤ miner.diff)
    (supplied : (worker.refresh miner).localTemplateVer ≠ 0) :
    workerRound sha3 cached miner worker =
        ((getMiningHash sha3 cached (worker.refresh miner).minedBlock).mapError .hash).map
          (fun hash => ({ worker.refresh miner with
              nonce := Word.add 64 (worker.refresh miner).nonce 1 },
            if checkHashData hash miner.diff then some (worker.refresh miner).minedBlock
            else none)) ∧
      (∀ hashInt, checkHash hashInt miner.diff = true →
        ∃ maxInt, maxIntForDiff miner.diff = .ok maxInt ∧ hashInt ≤ maxInt) ∧
      (∀ x < 2 ^ 256, hashToInt (intToHash x) = x) ∧
      ∀ data : List UInt8, data.length = 32 → intToHash (hashToInt data) = data := by
  have quotient : maxIntForDiff miner.diff = .ok ((2 ^ 256 - 1) / miner.diff) :=
    if_neg (Nat.ne_of_gt positive)
  refine ⟨?_, fun hashInt passes => ⟨_, quotient, (le_quotient_iff positive hashInt).mpr passes⟩,
    fun x fits => ?_, fun data length => ?_⟩
  · obtain ⟨headFull, head, mined⟩ :=
      @getMiningHash_minedBlock sha3 cached (worker.refresh miner)
    rw [mined]
    simp only [workerRound, running, quotient, head]
    cases getMiningBlobTail sha3 cached (worker.refresh miner).b with
    | error error => rfl
    | ok tail =>
      generalize found : sha3 (headFull.take (headFull.length - 8) ++
        littleEndian 8 (worker.refresh miner).nonce ++ tail) = hash
      have both : (decide (hashToInt (scalarBlob hash) ≤ (2 ^ 256 - 1) / miner.diff) &&
          checkHashData hash miner.diff) = checkHashData hash miner.diff := by
        rw [Bool.and_eq_right_iff_imp, decide_eq_true_eq]
        exact (le_quotient_iff positive _).mpr
      simp only [Except.mapError, Except.map, bind, Except.bind, supplied, found, both]
      rfl
  · rw [intToHash, intToHashBytes_eq, hashToInt, ofBigEndian_littleEndian fits]
  · rw [intToHash, intToHashBytes_eq, hashToInt, littleEndian_ofBigEndian length]

end Rounds

theorem workerRound_tests_as_chain_reward :
    1 ≤ 5 ∧ workerRound (fun _ => 3) 0
        { stop := false, pauser := false, template := rewardBlock, templateNo := 1,
          starterNonce := 8, diff := 5, blockReward := 0, thread := none }
        { nonce := 0, b := rewardBlock, localTemplateVer := 0 } =
      .ok ({ nonce := 9, b := rewardBlock, localTemplateVer := 1 },
        some { rewardBlock with nonce := 8 }) := by
  refine ⟨by decide, ?_⟩
  rw [(workerRound_tests_as_chain (fun _ => 3) 0 rfl (by decide) (by decide)).1]
  decide +kernel

/-! ## Starting and stopping -/

/-- What `get_block_template` gives, with the starter nonce that is drawn then. -/
structure BlockTemplate where
  block : Block
  difficulty : Nat
  expectedReward : Nat
  starterNonce : Nat

namespace Miner

/-- A new miner, with a block that was made without values. -/
def new (template : Block) : Miner where
  stop := true
  pauser := false
  template := template
  templateNo := 0
  starterNonce := 0
  diff := 0
  blockReward := 0
  thread := none

variable (miner : Miner)

/-- `set_block_template`. -/
def setBlockTemplate (bl : BlockTemplate) : Miner :=
  { miner with
    template := bl.block
    diff := bl.difficulty
    blockReward := bl.expectedReward
    templateNo := Word.add 32 miner.templateNo 1
    starterNonce := bl.starterNonce }

/-- `request_block_template`: nothing changes if `get_block_template` fails. -/
def requestBlockTemplate : Option BlockTemplate → Miner
  | none => miner
  | some bl => miner.setBlockTemplate bl

/-- `is_mining`. -/
def isMining : Bool :=
  !miner.stop

/-- `start`. -/
def start (starterNonce : Nat) (answer : Option BlockTemplate) : Miner :=
  let miner := { miner with blockReward := 0, starterNonce := starterNonce }
  if miner.isMining then
    miner
  else if miner.thread.isSome then
    miner
  else
    let miner := miner.requestBlockTemplate answer
    { miner with
      stop := false
      thread := some { nonce := miner.starterNonce, b := miner.template, localTemplateVer := 0 } }

/-- `stop`, which waits until the worker has ended. -/
def stopMining : Miner :=
  if miner.thread.isNone then miner else { miner with stop := true, thread := none }

/-- `on_block_chain_update`. -/
def onBlockChainUpdate (answer : Option BlockTemplate) : Miner :=
  if miner.isMining then miner.requestBlockTemplate answer else miner

/-- `on_idle`; `due` says whether five seconds have passed. -/
def onIdle (due : Bool) (answer : Option BlockTemplate) : Miner :=
  if due then miner.onBlockChainUpdate answer else miner

end Miner

/-- The calls of the miner, with what `get_block_template` answers if it is called. -/
inductive MinerCall where
  | start (starterNonce : Nat) (answer : Option BlockTemplate)
  | stop
  | onBlockChainUpdate (answer : Option BlockTemplate)
  | onIdle (due : Bool) (answer : Option BlockTemplate)
  | pause
  | resume

namespace MinerCall

/-- The miner after a call. -/
def perform (miner : Miner) : MinerCall → Miner
  | start starterNonce answer => miner.start starterNonce answer
  | stop => miner.stopMining
  | onBlockChainUpdate answer => miner.onBlockChainUpdate answer
  | onIdle due answer => miner.onIdle due answer
  | pause => { miner with pauser := true }
  | resume => { miner with pauser := false }

/-- The template that a call receives. -/
def received (miner : Miner) : MinerCall → Option BlockTemplate
  | start _ answer => if miner.isMining || miner.thread.isSome then none else answer
  | onBlockChainUpdate answer => if miner.isMining then answer else none
  | onIdle due answer => if due && miner.isMining then answer else none
  | _ => none

/-- The difficulty changes with a received template, and only then. -/
theorem perform_diff (miner : Miner) (call : MinerCall) :
    (call.perform miner).diff = ((call.received miner).map (·.difficulty)).getD miner.diff := by
  obtain ⟨stop, pauser, template, templateNo, nonce, diff, reward, thread⟩ := miner
  cases call with
  | start starterNonce answer => cases stop <;> cases thread <;> cases answer <;> rfl
  | stop => cases thread <;> rfl
  | onBlockChainUpdate answer => cases stop <;> cases answer <;> rfl
  | onIdle due answer => cases due <;> cases stop <;> cases answer <;> rfl
  | pause => rfl
  | resume => rfl

end MinerCall

/-- The runs of a miner and its worker, with whether a template has been received. Every received
template has a difficulty of at least one. -/
inductive MinerRun (sha3 : List UInt8 → Hash) (cached : Nat) (template : Block) :
    Bool → Miner → Prop
  | new : MinerRun sha3 cached template false (Miner.new template)
  | call {received : Bool} {miner : Miner} (run : MinerRun sha3 cached template received miner)
      (call : MinerCall) (positive : ∀ bl, call.received miner = some bl → 1 ≤ bl.difficulty) :
      MinerRun sha3 cached template (received || (call.received miner).isSome) (call.perform miner)
  | round {received : Bool} {miner : Miner} {worker after : Worker} {handed : Option Block}
      (run : MinerRun sha3 cached template received miner) (mining : miner.isMining = true)
      (thread : miner.thread = some worker)
      (round : workerRound sha3 cached miner worker = .ok (after, handed)) :
      MinerRun sha3 cached template received { miner with thread := some after }

/-- A state that a run reaches. -/
structure ReachedMiner (sha3 : List UInt8 → Hash) (cached : Nat) where
  template : Block
  received : Bool
  miner : Miner
  run : MinerRun sha3 cached template received miner

section Runs

variable {sha3 : List UInt8 → Hash} {cached : Nat} {template : Block} {received : Bool}
  {miner : Miner}

/-- The difficulty is zero as long as no template has been received. -/
theorem MinerRun.diff_eq_zero_iff (run : MinerRun sha3 cached template received miner) :
    miner.diff = 0 ↔ received = false := by
  induction run with
  | new => exact iff_of_true rfl rfl
  | @call received miner run call positive ih =>
    rw [call.perform_diff]
    cases answer : call.received miner with
    | none => simpa using ih
    | some bl => simpa using Nat.ne_of_gt (positive bl answer)
  | round run mining thread round ih => exact ih

theorem workerRound_eq_divisionByZero {worker : Worker} :
    workerRound sha3 cached miner worker = .error .divisionByZero ↔
      miner.pauser = false ∧ miner.diff = 0 := by
  unfold workerRound
  cases miner.pauser with
  | true => simp [pure, Except.pure]
  | false =>
    by_cases zero : miner.diff = 0
    · simp [maxIntForDiff, zero, bind, Except.bind]
    · obtain ⟨head, serialised, -⟩ := getMiningBlobHead_nonce (worker.refresh miner).b 0
      simp only [serialised]
      cases getMiningBlobTail sha3 cached (worker.refresh miner).b with
      | error error => simp [maxIntForDiff, zero, Except.mapError, bind, Except.bind]
      | ok tail =>
        by_cases missing : (worker.refresh miner).localTemplateVer = 0 <;>
          simp [maxIntForDiff, zero, missing, Except.mapError, bind, Except.bind, pure, Except.pure]

/-- A round divides by zero exactly if it is not paused and no template has been received yet. -/
theorem ReachedMiner.round_divides_by_nonzero_iff (reached : ReachedMiner sha3 cached)
    (worker : Worker) :
    workerRound sha3 cached reached.miner worker ≠ .error .divisionByZero ↔
      reached.miner.pauser = true ∨ reached.received = true := by
  rw [ne_eq, workerRound_eq_divisionByZero, reached.run.diff_eq_zero_iff]
  cases reached.miner.pauser <;> cases reached.received <;> decide

end Runs

/-- A miner that is started while there is no template. -/
theorem started_worker_divides_by_zero :
    ∃ worker, ((Miner.new rewardBlock).start 0 none).thread = some worker ∧
      ((Miner.new rewardBlock).start 0 none).isMining = true ∧
      workerRound (fun _ => 0) 0 ((Miner.new rewardBlock).start 0 none) worker =
        .error .divisionByZero :=
  ⟨_, rfl, rfl, rfl⟩

end Memero
