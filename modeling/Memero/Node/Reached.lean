import Memero.Node.Safety

/-!
# Reached states

Every block of a chain that a node reaches stands on the one below it with the work that was due.
What happens between `prepare_handle_incoming_blocks` and `cleanup_handle_incoming_blocks` is kept
or dropped as a whole, whatever is called in between.
-/

namespace Memero

open Exec Node ChainTables List Nat

/-- A main chain in a run with any calls. -/
structure Reached (env : Env) (network : Network) where
  node : Node
  chain : ChainTables
  binding : env.Binding
  run : Run env network anyCall node
  main : node.MainChain chain

section Chain

variable {env : Env} {network : Network} {ledger : Ledger} {height : Nat} {entry : Entry}

theorem getBlockInfo_ofLedger {α : Type} (found : ledger[height]? = some entry)
    (read : BlockInfo → α) (value : Entry → α)
    (recorded : ∀ db entry, read (infoOf env db entry) = value entry) :
    ((ofLedger env ledger).getBlockInfo height).map read = .ok (value entry) := by
  have row := congrArg (·[height]?) (ofLedger_blockInfo_map env ledger read value recorded)
  simp only [getElem?_map, found, Option.map_some] at row
  obtain ⟨info, located, same⟩ := Option.map_eq_some_iff.mp row
  rw [getBlockInfo, located, ← same]
  rfl

/-- Every block above the genesis block names the block below it, and its hash meets the
difficulty that the blocks below it give, which is not zero and is added to their work. -/
theorem Reached.chained (reached : Reached env network) :
    ∃ ledger, reached.chain = ofLedger env ledger ∧ ∀ height below entry,
      ledger[height]? = some below → ledger[height + 1]? = some entry →
        entry.block.prevId = env.getBlockHash below.block ∧ ∃ difficulty ≠ 0,
          (ofLedger env (ledger.take (height + 1))).getDifficultyForNextBlock env.fixedDifficulty =
            .ok difficulty ∧
          checkHash (env.getMiningHash entry.block) difficulty = true ∧
          entry.cumulativeDifficulty = Word.add 128 difficulty below.cumulativeDifficulty := by
  obtain ⟨ledger, valid, holds⟩ := reached.run.held reached.binding reached.main
  refine ⟨ledger, holds, fun height below entry lower found => ?_⟩
  have accepted := valid.accepted (succ_pos height) found
  have size : (ledger.take (height + 1)).length = height + 1 :=
    length_take_of_le (le_of_lt (List.getElem?_eq_some_iff.mp found).1)
  have top : (ledger.take (height + 1))[height]? = some below := by
    rwa [getElem?_take_of_lt (lt_succ_self height)]
  have parent := accepted.parent
  obtain ⟨difficulty, next, nonzero, worked, total⟩ := accepted.work
  rw [topBlockHash, ofLedger_height, size, if_neg (succ_ne_zero _), Nat.add_sub_cancel,
    getBlockHashFromHeight, getBlockInfo_ofLedger top _ _ fun _ _ => rfl] at parent
  rw [mainCumulativeDifficulty, ofLedger_height, size, if_neg (succ_ne_zero _),
    Nat.add_sub_cancel, getBlockCumulativeDifficulty,
    getBlockInfo_ofLedger top _ _ fun _ _ => rfl] at total
  exact ⟨(Except.ok.inj parent).symm, difficulty, nonzero, next, worked, (Except.ok.inj total).symm⟩

end Chain

/-! ## Brackets -/

variable {env : Env} {network : Network} {start node : Node} {tables : Database} {command : Command}

/-- A call that comes back. -/
def Command.Takes (env : Env) (command : Command) (node after : Node) : Prop :=
  ∃ outcome, (command.perform env).run node = (outcome, after) ∧ outcome ≠ .exhausted

/-- The states inside the bracket that was opened in the state `start`, after any calls but the
one that closes it. -/
inductive Inside (env : Env) (start : Node) : Node → Prop where
  | opened {node : Node} {first : BlockCompleteEntry} {rest : List BlockCompleteEntry}
      (idle : start.batch = none) (took : (Command.prepare (first :: rest)).Takes env start node) :
      Inside env start node
  | call {node after : Node} {command : Command} (inside : Inside env start node)
      (other : command ≠ .cleanup) (took : command.Takes env node after) : Inside env start after

/-- A bracket of a run. -/
structure Bracket (env : Env) (network : Network) where
  start : Node
  node : Node
  binding : env.Binding
  run : Run env network anyCall start
  inside : Inside env start node

/-- A bracket starts with a copy of the tables. -/
theorem prepare_batch (first : BlockCompleteEntry) (rest : List BlockCompleteEntry)
    (idle : start.batch = none) :
    (Command.perform env (.prepare (first :: rest))).Ensures start
      (fun _ after => after.batch = some start.database) (·.batch = some start.database) := by
  simp only [Command.perform, prepareHandleIncomingBlocks, batchStart, idle, ensures_bind,
    ensures_get, ensures_modify, ensures_pure, Option.isSome_none, Bool.false_eq_true, if_false,
    not_true_eq_false, ensures_reads]
  refine ⟨fun topHash _ => ?_, fun _ _ => trivial⟩
  split
  · rfl
  · split
    · rfl
    · simp only [ensures_bind, ensures_get, ensures_ite, ensures_modify, ensures_reads]
      refine ⟨fun _ => rfl, fun _ => ⟨fun scanned _ => ?_, fun _ _ => trivial⟩⟩
      cases scanned <;> rfl

/-- A sound node inside a bracket that started with `tables`. -/
abbrev Node.Busy (env : Env) (network : Network) (tables : Database) : Node → Prop :=
  Node.Inv env (fun _ => True) network (· = true) (some tables)

/-- No call inside a bracket touches the copy. -/
theorem Command.perform_busy (binding : env.Binding) (other : command ≠ .cleanup) :
    Keeps (Busy env network tables) (command.perform env) := by
  intro node busy
  have beside {α : Type} {program : NodeM α} (kept : program.Ensures node
      (fun _ => Beside env (fun _ => True) node) fun _ => False) :
      program.Ensures node (fun _ => Busy env network tables) (Busy env network tables) :=
    kept.mono (fun _ _ => busy.of_beside) fun _ => False.elim
  unfold perform
  cases command with
  | incoming blobs txRelay relayed =>
    rw [ensures_bind]
    exact beside (handleIncomingRingcts_ensures busy fun _ _ _ _ => trivial)
  | prepare entries =>
    cases entries with
    | nil => exact busy
    | cons => simp [prepareHandleIncomingBlocks, batchStart, busy.batch]
  | newBlock fuel bl =>
    rw [ensures_bind]
    exact addNewBlock_keeps binding (by simp) fuel bl node busy
  | cleanup => exact absurd rfl other
  | pop nblocks =>
    simp only [popBlocks, batchStart, busy.batch, ensures_bind, ensures_get]
    exact (tryPops_ensures _ busy).mono (fun _ _ => And.left) fun _ => False.elim
  | removeStuck =>
    exact beside ((tick_maintains.bind fun now =>
      onPool_maintains (removeStuckTransactions_maintains now)) node busy.beside)
  | setRelayed hashes method =>
    exact beside ((tick_maintains.bind fun now =>
      onPool_maintains (setRelayed_maintains hashes method now)) node busy.beside)

theorem Command.Takes.of_ensures {after : Node} {holds : Node → Prop}
    (took : command.Takes env node after)
    (ensured : (command.perform env).Ensures node (fun _ => holds) holds) : holds after := by
  obtain ⟨outcome, ran, finished⟩ := took
  cases outcome with
  | ok value => exact ensured.of_ok ran
  | thrown exception => exact ensured.of_thrown ran
  | exhausted => exact absurd rfl finished

theorem Bracket.busy (bracket : Bracket env network) :
    bracket.node.Busy env network bracket.start.database := by
  obtain ⟨start, node, binding, run, inside⟩ := bracket
  induction inside with
  | opened idle took =>
    have between := run.between binding fun node command _ => anyCall_supplied node command
    have kept := took.of_ensures (Command.perform_keeps binding _ between trivial trivial)
    exact (kept.busy _ (took.of_ensures (prepare_batch _ _ idle))).1
  | call inside other took ih => exact took.of_ensures (Command.perform_busy binding other _ ih)

example : Nonempty (Bracket plainEnv mainnet) :=
  ⟨⟨_, _, plainEnv_binding, Run.start (by decide),
    @Inside.opened _ _ _ ⟨none, []⟩ [] rfl ⟨_, rfl, by decide⟩⟩⟩

end Memero
