import Memero.Node.Switching

/-!
# Incoming transactions keep the invariant

`handle_incoming_ringcts` runs three loops over what arrived, and passes from one to the
next whether a transaction may go on. A transaction that the last loop gives to the pool has
passed the checks of the second one; one of version 1, for which the amounts are not
verified there, is refused by the pool because of its type.
-/

namespace Memero

open Exec

open Node (Beside)

section Arrival

variable {env : Env} {extra : Transaction → Prop} {network : Network} {live : Bool → Prop}
  {batch : Option Database} {before : Node}

/-- What the loops know of an event; `origin` says where its blob came from. -/
structure TxpoolEvent.Known (env : Env) (origin : TxBlob → Prop) (event : TxpoolEvent) :
    Prop where
  hash : event.hash = env.getTransactionHash event.blob.tx
  version : event.res = true → event.blob.tx.version ≠ 0 ∧ event.blob.tx.version ≤ 2
  origin : origin event.blob

/-- An event that, if it goes on to the pool, has passed the second loop. -/
structure TxpoolEvent.Arrived (env : Env) (origin : TxBlob → Prop) (event : TxpoolEvent) :
    Prop extends event.Known env origin where
  verified : event.res = true → event.alreadyHave = false →
    (∃ txFromBlock, env.checkRingctSemantic event.blob.tx txFromBlock = true) ∧
      (2 ≤ event.blob.tx.version → ∃ rangeMemory balanceMemory,
        env.verifyAmounts event.blob.tx rangeMemory balanceMemory = true)

variable {origin : TxBlob → Prop}

theorem handleIncomingRingctPre_known (node : Node) {blob : TxBlob} (from' : origin blob) :
    (node.handleIncomingRingctPre env blob).Known env origin where
  hash := rfl
  version := by
    intro res
    simp only [Node.handleIncomingRingctPre, Bool.and_eq_true, decide_eq_true_eq] at res
    exact res.2
  origin := from'

theorem setSemanticsFailed_maintains (txHash : Hash) :
    Maintains (Beside env extra before) (setSemanticsFailed txHash) :=
  fun _ kept => { kept with }

variable {txFromBlock : Bool} {node : Node} {events : List TxpoolEvent}
variable {tx : Transaction} {txRelay : RelayMethod} {relayed : Bool}

theorem verifyArrival_ensures {txHash : Hash} (kept : Beside env extra before node) :
    (verifyArrival env tx txHash txFromBlock).Ensures node
      (fun verified after => Beside env extra before after ∧ (verified = true →
        env.checkRingctSemantic tx txFromBlock = true ∧
          (2 ≤ tx.version → ∃ rangeMemory balanceMemory,
            env.verifyAmounts tx rangeMemory balanceMemory = true)))
      fun _ => False := by
  have refused : ∀ {node : Node}, Beside env extra before node →
      (do setSemanticsFailed txHash; return false : NodeM Bool).Ensures node
        (fun verified after => Beside env extra before after ∧ (verified = true →
          env.checkRingctSemantic tx txFromBlock = true ∧
            (2 ≤ tx.version → ∃ rangeMemory balanceMemory,
              env.verifyAmounts tx rangeMemory balanceMemory = true))) fun _ => False := by
    intro node kept
    rw [ensures_bind]
    exact (setSemanticsFailed_maintains txHash node kept).mono
      (fun _ _ kept => ⟨kept, fun impossible => by cases impossible⟩) fun _ => id
  unfold verifyArrival
  rw [ensures_ite]
  refine ⟨fun _ => refused kept, fun semantic => ?_⟩
  rw [ensures_ite]
  refine ⟨fun old => ⟨kept, fun _ => ⟨not_not.mp semantic, fun modern => ?_⟩⟩, fun _ => ?_⟩
  · exact absurd modern (Nat.not_le_of_lt old)
  · rw [ensures_bind]
    refine (nextMemory_maintains node kept).mono ?_ fun _ => id
    intro rangeMemory node kept
    rw [ensures_bind]
    refine (nextMemory_maintains node kept).mono ?_ fun _ => id
    intro balanceMemory node kept
    rw [ensures_ite]
    refine ⟨fun amounts => ⟨kept, fun _ => ⟨not_not.mp semantic, fun _ => ?_⟩⟩, fun _ => ?_⟩
    · exact ⟨rangeMemory, balanceMemory, amounts⟩
    · exact refused kept

theorem verifyArrivals_ensures (kept : Beside env extra before node)
    (known : ∀ event ∈ events, event.Known env origin) :
    (verifyArrivals env txFromBlock events).Ensures node
      (fun result after => Beside env extra before after ∧
        ∀ event ∈ result, event.Arrived env origin) fun _ => False := by
  induction events generalizing node with
  | nil => exact ⟨kept, by simp⟩
  | cons event rest ih =>
    have first := known event (by simp)
    have others : ∀ other ∈ rest, other.Known env origin :=
      fun other member => known other (List.mem_cons_of_mem _ member)
    have assembled : ∀ {head : TxpoolEvent} {node : Node}, head.Arrived env origin →
        Beside env extra before node →
        (do
          let others ← verifyArrivals env txFromBlock rest
          return head :: others : NodeM (List TxpoolEvent)).Ensures node
          (fun result after => Beside env extra before after ∧
            ∀ event ∈ result, event.Arrived env origin) fun _ => False := by
      intro head node arrived kept
      rw [ensures_bind]
      refine (ih kept others).mono ?_ fun _ => id
      rintro result after ⟨kept, all⟩
      refine ⟨kept, ?_⟩
      intro event member
      rcases List.mem_cons.mp member with rfl | member
      · exact arrived
      · exact all event member
    unfold verifyArrivals
    rw [ensures_ite]
    refine ⟨fun going => ?_, fun stays => assembled ⟨first, fun res fresh => ?_⟩ kept⟩
    · rw [ensures_bind]
      refine (verifyArrival_ensures kept).mono ?_ fun _ => id
      rintro verified node ⟨kept, passed⟩
      refine assembled ?_ kept
      refine ⟨⟨first.hash, fun _ => first.version going.1, first.origin⟩, fun res _ => ?_⟩
      exact ⟨⟨txFromBlock, (passed res).1⟩, (passed res).2⟩
    · exact absurd ⟨res, by simp [fresh]⟩ stays

/-- A transaction that goes on to the pool is admitted if the pool takes it. -/
theorem TxpoolEvent.Arrived.admitted {event : TxpoolEvent} (arrived : event.Arrived env origin)
    (res : event.res = true) (fresh : event.alreadyHave = false)
    (outputs : env.checkRingctOutputs event.blob.tx = true) (holds : extra event.blob.tx) :
    Admitted env extra event.hash event.blob.tx := by
  obtain ⟨semantic, amounts⟩ := arrived.verified res fresh
  obtain ⟨nonzero, atMost⟩ := arrived.version res
  have type : event.blob.tx.ringct.type = .clsag := by
    simp only [Env.checkRingctOutputs, Bool.and_eq_true, decide_eq_true_eq] at outputs
    exact outputs.1.2
  have modern : event.blob.tx.version ≠ 1 := by
    intro legacy
    rw [event.blob.legacy legacy] at type
    cases type
  have version : event.blob.tx.version = 2 := by omega
  exact ⟨arrived.hash.symm, version, semantic, amounts (Nat.le_of_eq version.symm), holds⟩

/-- What makes a transaction offered to the pool satisfy `extra`, if the pool may take it. -/
def Supplies (env : Env) (extra : Transaction → Prop) (before : Node) (txRelay : RelayMethod)
    (tx : Transaction) : Prop :=
  env.checkRingctOutputs tx = true →
    txRelay = .block ∨ (∃ uninit used, before.chain.checkRingctInputs env before.scanTable
      uninit tx = .ok (some used)) → extra tx

theorem typed_of_semantic (passed : env.checkRingctSemantic tx txFromBlock = true) :
    ∃ inputs, tx.vin.mapM TxIn.fromKey? = some inputs := by
  simp only [Env.checkRingctSemantic, Bool.and_eq_true] at passed
  exact Option.isSome_iff_exists.mp passed.2

theorem addArrivals_ensures (kept : Beside env extra before node) (aligned : before.chain.Aligned)
    (arrived : ∀ event ∈ events, event.Arrived env fun blob => Supplies env extra before txRelay blob.tx) :
    (addArrivals env txRelay relayed events).Ensures node (fun _ => Beside env extra before)
      (Beside env extra before) := by
  induction events generalizing node with
  | nil => exact kept
  | cons event rest ih =>
    have first := arrived event (by simp)
    have others := fun {node} (kept : Beside env extra before node) =>
      ih kept fun other member => arrived other (List.mem_cons_of_mem _ member)
    unfold addArrivals
    rw [ensures_ite]
    refine ⟨fun _ => ?_, fun going => ?_⟩
    · rw [ensures_bind]
      exact (others kept).mono (fun _ _ => id) fun _ => id
    · have res := not_not.mp going
      rw [ensures_ite]
      refine ⟨fun _ => others kept, fun fresh => ?_⟩
      rw [Bool.not_eq_true] at fresh
      have added : (addNewTx env event.blob.tx event.hash txRelay relayed).Ensures node
          (fun _ => Beside env extra before) (Beside env extra before) := by
        unfold addNewTx
        rw [ensures_get_bind, ensures_ite]
        refine ⟨fun _ => kept, fun _ => ?_⟩
        rw [ensures_ite]
        refine ⟨fun _ => kept, fun _ => ?_⟩
        obtain ⟨txFromBlock, semantic⟩ := (first.verified res fresh).1
        refine (poolAddTx_ensures kept aligned ?_ (typed_of_semantic semantic)).mono
          (fun _ _ => id) fun _ => False.elim
        intro outputs passed
        exact ⟨rfl, first.admitted res fresh outputs (first.origin outputs passed)⟩
      rw [ensures_bind]
      refine added.mono ?_ fun _ => id
      intro result node kept
      rw [ensures_bind]
      exact (others kept).mono (fun _ _ => id) fun _ => id

/-- `handle_incoming_ringcts` changes nothing of the chain and leaves a good pool. -/
theorem handleIncomingRingcts_ensures {blobs : List (Option TxBlob)}
    (inv : node.Inv env extra network live batch)
    (supplied : ∀ blob, some blob ∈ blobs → Supplies env extra node txRelay blob.tx) :
    (handleIncomingRingcts env blobs txRelay relayed).Ensures node
      (fun _ => Beside env extra node) fun _ => False := by
  have known : ∀ event ∈ (blobs.filterMap id).map (node.handleIncomingRingctPre env),
      event.Known env fun blob => Supplies env extra node txRelay blob.tx := by
    intro event member
    obtain ⟨blob, present, rfl⟩ := List.mem_map.mp member
    obtain ⟨entry, given, same⟩ := List.mem_filterMap.mp present
    cases same
    exact handleIncomingRingctPre_known node (supplied blob given)
  have tried : (do
      let node ← Exec.get
      let events ← verifyArrivals env (decide (txRelay = .block))
        ((blobs.filterMap id).map (node.handleIncomingRingctPre env))
      let added ← addArrivals env txRelay relayed events
      return added && blobs.all Option.isSome : NodeM Bool).Ensures node
        (fun _ => Beside env extra node) (Beside env extra node) := by
    rw [ensures_get_bind, ensures_bind]
    refine (verifyArrivals_ensures inv.beside known).mono ?_ fun _ => False.elim
    rintro events after ⟨kept, arrived⟩
    rw [ensures_bind]
    exact (addArrivals_ensures kept inv.chain.aligned arrived).mono (fun _ _ kept => kept)
      fun _ => id
  exact tried.tryCatch fun _ _ kept => kept

end Arrival

end Memero
