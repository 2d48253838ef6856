import Memero.Node.MainChain

/-!
# Alternative blocks and reorganisation

`handle_alternative_block`, `switch_to_alternative_blockchain`,
`rollback_blockchain_switching` and `add_new_block` of `cryptonote/core/blockchain.cpp`. A
switch hands the blocks it disconnects to `handle_alternative_block`, which may switch
again; `fuel` bounds that recursion. The loops that pop blocks are bounded by the height.
-/

namespace Memero

/-- `remove_alt_block`. -/
def removeAltBlock (id : Hash) : NodeM Unit := do
  let node ← Exec.get
  if node.altBlocks.has id then
    Exec.modify fun node => { node with altBlocks := node.altBlocks.remove id }
  else
    Exec.throw .dbError

/-! ## Switching -/

/-- The loop of `switch_to_alternative_blockchain` that pops blocks until `target` is the
top; the popped blocks come lowest first. -/
def popUntilTop (env : Env) (target : Hash) : Nat → List Block → NodeM (List Block)
  | 0, _ => Exec.exhaust
  | fuel + 1, disconnected => do
      let topHash ← Exec.reads fun node => node.chain.topBlockHash
      if topHash = target then
        return disconnected
      else
        let popped ← popBlockFromBlockchain env
        popUntilTop env target fuel (popped :: disconnected)

/-- The loop of `rollback_blockchain_switching` that pops blocks down to a height. -/
def popUntilHeight (env : Env) (height : Nat) : Nat → NodeM Unit
  | 0 => Exec.exhaust
  | fuel + 1 => do
      let node ← Exec.get
      if node.chain.height = height then
        return ()
      else
        let _ ← popBlockFromBlockchain env
        popUntilHeight env height fuel

/-- Whether a block was added by `handle_block_to_main_chain` with a context of its own. -/
def tryAddBlock (env : Env) (bl : Block) : NodeM Bool := do
  let result ← withLocalBvc (handleBlockToMainChain env bl (env.getBlockHash bl))
  return result.1 && result.2.addedToMainChain

/-- The loop of `rollback_blockchain_switching` that adds the original blocks again. -/
def readdBlocks (env : Env) : List Block → NodeM Bool
  | [] => pure true
  | bl :: rest => do
      let added ← tryAddBlock env bl
      if added then readdBlocks env rest else return false

/-- `rollback_blockchain_switching`. -/
def rollbackBlockchainSwitching (env : Env) (originalChain : List Block)
    (rollbackHeight : Nat) : NodeM Bool := do
  let node ← Exec.get
  if node.chain.height < rollbackHeight then
    return true
  else
    popUntilHeight env rollbackHeight (node.chain.height + 1)
    readdBlocks env originalChain

/-- The loop of `switch_to_alternative_blockchain` that connects the alternative chain: the
blocks from the first one that failed on. -/
def connectBlocks (env : Env) : List BlockExtendedInfo → NodeM (List BlockExtendedInfo)
  | [] => pure []
  | bei :: rest => do
      let added ← tryAddBlock env bei.bl
      if added then connectBlocks env rest else return bei :: rest

/-- Mark a block of a failed alternative chain and drop it. -/
def dropInvalid (env : Env) (bei : BlockExtendedInfo) : NodeM Unit := do
  addBlockAsInvalid bei (env.getBlockHash bei.bl)
  removeAltBlock (env.getBlockHash bei.bl)

/-- `switch_to_alternative_blockchain`; `pushAlternative` is `handle_alternative_block`. -/
def switchToAlternativeBlockchain (env : Env) (pushAlternative : Block → Hash → NodeM Bool)
    (altChain : List BlockExtendedInfo) : NodeM Bool := do
  match altChain with
  | [] => return false
  | front :: _ =>
    let node ← Exec.get
    if ¬ node.chain.blockExists front.bl.prevId then
      return false
    else
      let disconnectedChain ← popUntilTop env front.bl.prevId (node.chain.height + 1) []
      let splitNode ← Exec.get
      let failed ← connectBlocks env altChain
      if failed.isEmpty then
        Exec.forEach (fun bl => do
          let _ ← withLocalBvc (pushAlternative bl (env.getBlockHash bl))
          return ()) disconnectedChain
        Exec.forEach (fun bei => removeAltBlock (env.getBlockHash bei.bl)) altChain
        return true
      else
        let _ ← rollbackBlockchainSwitching env disconnectedChain splitNode.chain.height
        Exec.forEach (dropInvalid env) failed
        return false

/-! ## Alternative blocks -/

/-- The weight that `handle_alternative_block` computes: zero if a transaction is unknown. -/
def altBlockWeight (env : Env) (node : Node) : List Hash → Nat → Nat
  | [], weight => weight
  | txid :: rest, weight =>
    if node.pool.haveTx txid .legacy then
      altBlockWeight env node rest (Word.add 64 weight
        (((node.pool.txpool.find txid).map (·.details.weight)).getD 0))
    else
      match node.chain.getTx? txid with
      | some tx =>
        altBlockWeight env node rest (Word.add 64 weight (env.getTransactionWeight tx))
      | none => 0

/-- The part of `handle_alternative_block` after its checks. -/
def storeAlternative (env : Env) (pushAlternative : Block → Hash → NodeM Bool)
    (altChain : List BlockExtendedInfo) (bei : BlockExtendedInfo)
    (mainChainCumulativeDifficulty : Nat) (id : Hash) : NodeM Bool := do
  let node ← Exec.get
  if node.altBlocks.has id then
    return false
  else
    Exec.modify fun node => { node with altBlocks := node.altBlocks.put id bei }
    if mainChainCumulativeDifficulty < bei.cumulativeDifficulty then
      let switched ← switchToAlternativeBlockchain env pushAlternative (altChain ++ [bei])
      if switched then
        updateBvc fun bvc => { bvc with addedToMainChain := true }
        return true
      else
        failBlock
    else
      return true

/-- The part of `handle_alternative_block` once the alternative chain is known. -/
def checkAlternative (env : Env) (pushAlternative : Block → Hash → NodeM Bool)
    (altChain : List BlockExtendedInfo) (timestamps : List Nat) (b : Block) (id : Hash) :
    NodeM Bool := do
  let prevHeight ← Exec.reads fun node =>
    match altChain.getLast? with
    | some last => .ok last.height
    | none => node.chain.getBlockHeight b.prevId
  let prevGeneratedCoins ← Exec.reads fun node =>
    match altChain.getLast? with
    | some last => .ok last.alreadyGeneratedCoins
    | none => node.chain.getBlockAlreadyGeneratedCoins prevHeight
  if ¬ checkBlockTimestampMedian timestamps b then
    failBlock
  else
    let currentDiff ← Exec.reads fun node =>
      node.chain.getNextDifficultyForAlternativeChain env.fixedDifficulty altChain (prevHeight + 1)
    if currentDiff = 0 then
      return false
    else if ¬ checkHash (env.getMiningHash b) currentDiff then
      updateBvc fun bvc => { bvc with verifivationFailed := true, badPow := true }
      return false
    else if (env.prevalidateMinerTransaction b (prevHeight + 1)).isNone then
      failBlock
    else
      let mainChainCumulativeDifficulty ← Exec.reads fun node =>
        node.chain.getBlockCumulativeDifficulty (node.chain.height - 1)
      let cumulativeDifficulty ← Exec.reads fun node =>
        node.chain.alternativeCumulativeDifficulty altChain prevHeight currentDiff
      let node ← Exec.get
      storeAlternative env pushAlternative altChain
        { bl := b
          height := prevHeight + 1
          blockCumulativeWeight :=
            altBlockWeight env node b.txHashes (env.getTransactionWeight b.minerTx)
          cumulativeDifficulty := cumulativeDifficulty
          alreadyGeneratedCoins :=
            Word.add 64 prevGeneratedCoins (getTxOutputsMoneyAmount b.minerTx) }
        mainChainCumulativeDifficulty id

/-- `handle_alternative_block`. -/
def handleAlternativeBlock (env : Env) : Nat → Block → Hash → NodeM Bool
  | 0, _, _ => Exec.exhaust
  | fuel + 1, b, id => do
      if getBlockHeight b = 0 then
        failBlock
      else
        let node ← Exec.get
        if node.altBlocks.has b.prevId ∨ node.chain.blockExists b.prevId then
          match collectAltChain node.altBlocks (node.altBlocks.length + 1) b.prevId [] with
          | none => Exec.exhaust
          | some altChain =>
            let connected ← Exec.reads fun node =>
              node.chain.connectAltChain altChain b.prevId
            match connected with
            | none => return false
            | some timestamps =>
              checkAlternative env (handleAlternativeBlock env fuel) altChain timestamps b id
        else
          updateBvc fun bvc => { bvc with markedAsOrphaned := true }
          return true

/-! ## New blocks -/

/-- `have_block`. -/
def Node.haveBlock (node : Node) (id : Hash) : Bool :=
  node.chain.blockExists id || node.altBlocks.has id || node.invalidBlocks.has id

/-- `add_new_block`, called with a new context. -/
def addNewBlock (env : Env) (fuel : Nat) (bl : Block) : NodeM Bool := do
  updateBvc fun _ => .empty
  let id := env.getBlockHash bl
  Exec.tryCatch
    (do
      let node ← Exec.get
      if node.haveBlock id then
        updateBvc fun bvc => { bvc with alreadyExists := true }
        return false
      else
        let tail ← Exec.reads fun node => node.chain.topBlockHash
        if bl.prevId ≠ tail then
          handleAlternativeBlock env fuel bl id
        else
          handleBlockToMainChain env bl id)
    fun _ => failBlock

/-! ## The genesis block -/

/-- What the networks differ in: the extra field of `GENESIS_TX` and `GENESIS_NONCE`. -/
structure Network where
  genesisExtra : List UInt8
  genesisNonce : Nat
  deriving DecidableEq, Repr

/-- `config::mainnet`. -/
def mainnet : Network where
  genesisExtra :=
    [0x01, 0x2a, 0x1a, 0x93, 0x6b, 0xe5, 0xd9, 0x1c, 0x01, 0xee, 0x87, 0x6e, 0x38, 0xc1,
      0x3f, 0xab, 0x0e, 0xe1, 0x1c, 0xbe, 0x86, 0x01, 0x1a, 0x2b, 0xf7, 0x74, 0x0f, 0xb5,
      0xeb, 0xd3, 0x9d, 0x26, 0x7d]
  genesisNonce := 0x2fab0975

/-- `config::testnet`. -/
def testnet : Network where
  genesisExtra :=
    [0x01, 0x60, 0xeb, 0x75, 0x5f, 0x61, 0x8a, 0x23, 0x36, 0x05, 0x5d, 0xee, 0x60, 0xf3,
      0x07, 0xfe, 0x0d, 0xed, 0x81, 0xc5, 0xb3, 0x7b, 0x53, 0xd3, 0x10, 0x17, 0x5c, 0xa9,
      0xee, 0x69, 0xb0, 0xc8, 0xad]
  genesisNonce := 42

/-- `config::lol::constant_hf_version`. -/
def constantHfVersion : Nat := 17

/-- What `GENESIS_TX` encodes. -/
def Network.genesisTx (network : Network) : Transaction :=
  { version := 1
    unlockHeight := 60
    vin := [.gen 0]
    vout :=
      [{ amount := 2 ^ 40 - 1
         outputPublicKey :=
           0x9b2e4c0281c0b02e7c53291a94d1d0cbff8883f8024f5142ee494ffbbd088071 }]
    extra := network.genesisExtra
    ringct :=
      { type := .null
        ecdhEncryptedData := []
        outputCommits := []
        fee := 0
        p := { bulletproofs := [], clsags := [], pseudoInputCommits := [] } } }

/-- `generate_genesis_block`. -/
def generateGenesisBlock (network : Network) : Block :=
  { majorVersion := constantHfVersion
    minorVersion := constantHfVersion
    timestamp := 0
    prevId := 0
    nonce := network.genesisNonce
    minerTx := network.genesisTx
    txHashes := [] }

/-- The node before `Blockchain::init`, with a new database. -/
def Node.empty : Node :=
  { chain := .empty
    altBlocks := []
    pool := .empty
    batch := none
    batchSuccess := true
    invalidBlocks := []
    blocksLonghashTable := []
    scanTable := []
    badSemanticsTxes := ([], [])
    bvc := .empty
    ticks := 0
    checks := 0 }

/-- `Blockchain::init`: a new database gets the genesis block. -/
def initBlockchain (env : Env) (network : Network) : NodeM Bool := do
  let node ← Exec.get
  if node.chain.height = 0 then
    let _ ← addNewBlock env 1 (generateGenesisBlock network)
    let after ← Exec.get
    return !after.bvc.verifivationFailed
  else
    return true

end Memero
