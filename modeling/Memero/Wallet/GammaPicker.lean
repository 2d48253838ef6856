import Mathlib.Data.Finset.Card
import Mathlib.Data.Finset.Range
import Mathlib.Data.List.GetD
import Memero.Blockchain.Inputs
import Memero.Consensus.Difficulty
import Memero.Consensus.Rules

/-!
# Picking decoys

`gamma_picker`, which turns a distance drawn at random into an output of the chain, and the part of
`get_tx_outputs` that decides how many outputs are asked for and whether they are picked. The picker
takes the first block whose count of outputs is not below the drawn output, where the block that
holds it is the first whose count is above; and it leaves out one block more than its caller.
-/

namespace Memero

open List Nat

/-- `gamma_picker`, with what its constructor has checked. The offsets count the outputs up to each
block, so that they do not decrease. -/
structure GammaPicker where
  rctOffsets : List Nat
  sorted : rctOffsets.Pairwise (· ≤ ·)
  enough : defaultTxSpendableAge < rctOffsets.length
  nonzero : rctOffsets.getD (rctOffsets.length - defaultTxSpendableAge - 1) 0 ≠ 0

/-- The constructor, or nothing where it throws. -/
def gammaPicker (rctOffsets : List Nat) (sorted : rctOffsets.Pairwise (· ≤ ·)) :
    Option GammaPicker :=
  let blocksInAYear := 86400 * 365 / difficultyTargetInSeconds
  let blocksToConsider := min rctOffsets.length blocksInAYear
  let outputsToConsider := rctOffsets.getLastD 0 -
    if blocksToConsider < rctOffsets.length then
      rctOffsets.getD (rctOffsets.length - blocksToConsider - 1) 0
    else 0
  if checked : defaultTxSpendableAge < rctOffsets.length ∧
      rctOffsets.getD (rctOffsets.length - defaultTxSpendableAge - 1) 0 ≠ 0 then
    if outputsToConsider = 0 then none else some ⟨rctOffsets, sorted, checked.1, checked.2⟩
  else none

namespace GammaPicker

/-- The number of blocks between `begin` and `end`. -/
def blocks (picker : GammaPicker) : Nat :=
  picker.rctOffsets.length - defaultTxSpendableAge

def numRctOutputs (picker : GammaPicker) : Nat :=
  picker.rctOffsets.getD (picker.blocks - 1) 0

/-- The output at a distance from the last. -/
def sampled (picker : GammaPicker) (distance : Nat) : Nat :=
  picker.numRctOutputs - 1 - distance

/-- `pick`, where `distance` is drawn from the distribution and `rand_idx(n)` is `draw % n`: nothing
where it throws, and `some none` for the marker of a bad pick. -/
def pick (picker : GammaPicker) (distance draw : Nat) : Option (Option Nat) :=
  if picker.numRctOutputs ≤ distance then some none
  else
    -- `lower_bound` between `begin` and `end`, where the offsets do not decrease
    let index := (picker.rctOffsets.take picker.blocks).findIdx (picker.sampled distance ≤ ·)
    if index = picker.blocks then none
    else
      let firstRct := if index = 0 then 0 else picker.rctOffsets.getD (index - 1) 0
      let nRct := picker.rctOffsets.getD index 0 - firstRct
      if nRct = 0 then some none else some (some (firstRct + draw % nRct))

/-- An index that `pick` can return. -/
def Picks (picker : GammaPicker) (distance index : Nat) : Prop :=
  ∃ draw, picker.pick distance draw = some (some index)

end GammaPicker

/-- `requested_outputs_count`. -/
def requestedOutputsCount (fakeOutputsCount : Nat) (isRct : Bool) : Nat :=
  (fakeOutputsCount + 1) * 3 / 2 + 1 +
    if isRct then coinbaseUnlockTime - defaultTxSpendableAge else 0

/-- `num_outs`. -/
def numOuts (rctOffsets : List Nat) : Nat :=
  rctOffsets.getD (rctOffsets.length - defaultTxSpendableAge) 0

/-- The block that contains an output: the first whose count is above it. -/
def blockOf (offsets : List Nat) (output : Nat) : Nat :=
  offsets.findIdx (output < ·)

/-- Two bounds are reached at the same block if no count is between them. -/
theorem findIdx_eq_iff {offsets : List Nat} (sorted : offsets.Pairwise (· ≤ ·)) (a b : Nat) :
    offsets.findIdx (a ≤ ·) = offsets.findIdx (b ≤ ·) ↔ ∀ c ∈ offsets, a ≤ c ↔ b ≤ c := by
  induction offsets with
  | nil => simp
  | cons first rest ih =>
    obtain ⟨least, sorted⟩ := pairwise_cons.mp sorted
    rw [findIdx_cons, findIdx_cons, forall_mem_cons, ← ih sorted]
    by_cases left : a ≤ first <;> by_cases right : b ≤ first
    · have later : rest.findIdx (a ≤ ·) = rest.findIdx (b ≤ ·) := by
        rw [ih sorted]
        intro c member
        have := least c member
        omega
      simp [left, right, later]
    all_goals simp [left, right]

namespace GammaPicker

variable {picker : GammaPicker} {distance index : Nat}

theorem numRctOutputs_mem : picker.numRctOutputs ∈ picker.rctOffsets := by
  have := picker.enough
  rw [numRctOutputs, getD_eq_getElem _ _ (by unfold blocks; omega)]
  exact getElem_mem _

/-- What is picked is any output of the block where the search ends. -/
theorem picks_iff : picker.Picks distance index ↔ distance < picker.numRctOutputs ∧
    ∀ c ∈ picker.rctOffsets, index < c ↔ picker.sampled distance ≤ c := by
  unfold Picks pick
  by_cases near : distance < picker.numRctOutputs
  · have length : picker.blocks ≤ picker.rctOffsets.length := sub_le _ _
    have positive : 0 < picker.blocks := Nat.sub_pos_of_lt picker.enough
    have inside : picker.rctOffsets.findIdx (picker.sampled distance ≤ ·) < picker.blocks := by
      by_contra beyond
      have below := @not_of_lt_findIdx _ (picker.sampled distance ≤ ·) picker.rctOffsets
        (picker.blocks - 1) (by omega)
      rw [← getD_eq_getElem _ 0, ← numRctOutputs, decide_eq_false_iff_not, sampled] at below
      omega
    simp only [if_neg (not_le.mpr near), findIdx_take, near, true_and,
      Nat.min_eq_right (Nat.le_of_lt inside), if_neg (Nat.ne_of_lt inside), ← Nat.succ_le_iff]
    rw [← findIdx_eq_iff picker.sorted]
    generalize picker.rctOffsets.findIdx (picker.sampled distance ≤ ·) = block at inside
    have start : (if block = 0 then 0 else picker.rctOffsets.getD (block - 1) 0) ≤ index ↔
        ∀ j (_ : j < block), picker.rctOffsets[j] ≤ index := by
      split
      · exact ⟨fun _ j before => by omega, fun _ => zero_le _⟩
      · rw [getD_eq_getElem _ _ (by omega)]
        refine ⟨fun first j before => le_trans ?_ first, fun all => all _ (by omega)⟩
        rcases eq_or_lt_of_le (le_sub_one_of_lt before) with rfl | earlier
        · exact le_refl _
        · exact pairwise_iff_getElem.mp picker.sorted j (block - 1) _ _ earlier
    have short : block < picker.rctOffsets.length := by omega
    simp only [findIdx_eq short, getD_eq_getElem _ _ short, decide_eq_true_eq,
      decide_eq_false_iff_not, succ_le_iff, not_lt, ← start]
    generalize (if block = 0 then 0 else picker.rctOffsets.getD (block - 1) 0) = first
    constructor
    · rintro ⟨draw, picked⟩
      split at picked
      · cases picked
      · rename_i some
        cases picked
        have below := mod_lt draw (pos_of_ne_zero some)
        omega
    · rintro ⟨below, above⟩
      refine ⟨index - first, ?_⟩
      rw [if_neg (by omega), Nat.mod_eq_of_lt (by omega), Nat.add_sub_cancel' above]
  · simp [Nat.le_of_not_lt near]

variable (picker) in
/-- The number of outputs that can be picked: the last one cannot if it starts a block. -/
def pickable : Nat :=
  if picker.numRctOutputs - 1 ∈ picker.rctOffsets then picker.numRctOutputs - 1
  else picker.numRctOutputs

theorem exists_picks_iff : (∃ distance, picker.Picks distance index) ↔ index < picker.pickable := by
  have positive : 0 < picker.numRctOutputs := pos_of_ne_zero picker.nonzero
  constructor
  · rintro ⟨distance, picked⟩
    obtain ⟨near, same⟩ := picks_iff.mp picked
    have small : picker.sampled distance ≤ picker.numRctOutputs - 1 := sub_le _ _
    unfold pickable
    split
    · rename_i member
      exact (same _ member).mpr small
    · exact (same _ numRctOutputs_mem).mpr (by omega)
  · intro below
    -- the search for the output behind ends at the block of this one
    by_cases next : index + 1 < picker.numRctOutputs
    · refine ⟨picker.numRctOutputs - 1 - (index + 1), picks_iff.mpr ⟨by omega, ?_⟩⟩
      intro c _
      unfold sampled
      omega
    · refine ⟨0, picks_iff.mpr ⟨positive, ?_⟩⟩
      intro c member
      unfold pickable at below
      split at below
      · omega
      · rename_i new
        have other : c ≠ picker.numRctOutputs - 1 := fun equal => new (equal ▸ member)
        unfold sampled
        omega

/-- Every index picked is in the block of the sampled output exactly if that does not start one. -/
theorem picks_blockOf_iff :
    (∀ index, picker.Picks distance index →
      blockOf picker.rctOffsets index = blockOf picker.rctOffsets (picker.sampled distance)) ↔
    (distance < picker.numRctOutputs → picker.sampled distance ∈ picker.rctOffsets →
      picker.sampled distance = 0) := by
  constructor
  · intro right near member
    by_contra nonzero
    have picked : picker.Picks distance (picker.sampled distance - 1) :=
      picks_iff.mpr ⟨near, fun c _ => by omega⟩
    have same := (findIdx_eq_iff picker.sorted _ _).mp (right _ picked) _ member
    omega
  · intro starts index picked
    obtain ⟨near, same⟩ := picks_iff.mp picked
    apply (findIdx_eq_iff picker.sorted _ _).mpr
    intro c member
    have here := same c member
    have other : c ≠ picker.sampled distance := by
      rintro rfl
      have zero := starts near member
      omega
    omega

/-- How many indices other than `real` can be picked. -/
theorem exists_card_iff {requested : Nat} (real : Nat) (positive : 0 < requested) :
    (∃ found : Finset Nat, requested - 1 ≤ found.card ∧
      ∀ index ∈ found, index ≠ real ∧ ∃ distance, picker.Picks distance index) ↔
    requested ≤ picker.pickable + if real < picker.pickable then 0 else 1 := by
  have card := (Finset.range picker.pickable).card_erase_eq_ite (a := real)
  simp only [Finset.mem_range, Finset.card_range] at card
  have inside (index : Nat) : index ∈ (Finset.range picker.pickable).erase real ↔
      index ≠ real ∧ ∃ distance, picker.Picks distance index := by
    rw [Finset.mem_erase, Finset.mem_range, exists_picks_iff]
  constructor
  · rintro ⟨found, enough, picked⟩
    have most := Finset.card_le_card fun index member => (inside index).mpr (picked index member)
    split at card <;> split <;> omega
  · intro enough
    refine ⟨_, ?_, fun index => (inside index).mp⟩
    split at card <;> split at enough <;> omega

end GammaPicker

/-- The picker returns outputs of the sampled block, and can return enough of them, exactly if the
sampled output does not start a block and enough outputs are five blocks deep. -/
theorem pick_matches_caller_iff (picker : GammaPicker) (distance fakeOutputsCount real : Nat)
    (isRct : Bool) :
    ((∀ index, picker.Picks distance index →
        blockOf picker.rctOffsets index = blockOf picker.rctOffsets (picker.sampled distance)) ∧
      (requestedOutputsCount fakeOutputsCount isRct < numOuts picker.rctOffsets →
        ∃ found : Finset Nat, requestedOutputsCount fakeOutputsCount isRct - 1 ≤ found.card ∧
          ∀ index ∈ found, index ≠ real ∧ ∃ distance, picker.Picks distance index)) ↔
    (distance < picker.numRctOutputs → picker.sampled distance ∈ picker.rctOffsets →
        picker.sampled distance = 0) ∧
      (requestedOutputsCount fakeOutputsCount isRct < numOuts picker.rctOffsets →
        requestedOutputsCount fakeOutputsCount isRct ≤
          picker.pickable + if real < picker.pickable then 0 else 1) := by
  have positive : 0 < requestedOutputsCount fakeOutputsCount isRct := by
    unfold requestedOutputsCount
    omega
  rw [GammaPicker.picks_blockOf_iff, GammaPicker.exists_card_iff real positive]

theorem pick_misses_block : ∃ picker : GammaPicker,
    gammaPicker [1, 2, 2, 2, 2, 2] (by decide) = some picker ∧ picker.pick 0 0 = some (some 0) ∧
      blockOf picker.rctOffsets 0 = 0 ∧
      picker.sampled 0 = 1 ∧ blockOf picker.rctOffsets 1 = 1 :=
  ⟨⟨[1, 2, 2, 2, 2, 2], by decide, by decide, by decide⟩, rfl, by decide +kernel⟩

end Memero
