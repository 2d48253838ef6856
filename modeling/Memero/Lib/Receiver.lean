import Mathlib.Algebra.GroupWithZero.Nat
import Mathlib.Data.List.Basic
import Mathlib.Tactic.Common

/-!
# Receivers

A receiver is handed a stream chunk by chunk. It keeps the part of the stream that it has not
used, and takes steps as long as what it keeps suffices for one. What it may keep is limited, and
the limit can change as it goes.

The stream it expects is a sequence of frames. `Receiver.feed_iff` says exactly which ways of
cutting the stream it accepts, and `Receiver.feed_eq` that it then ends where the stream leads,
whatever the cuts.
-/

/-- The ways to split a list at one of its elements. -/
theorem List.forall_split_cons {α : Type} {P : List α → α → List α → Prop} {x : α} {xs : List α} :
    (∀ before y after, x :: xs = before ++ y :: after → P before y after) ↔
      P [] x xs ∧ ∀ before y after, xs = before ++ y :: after → P (x :: before) y after := by
  constructor
  · intro all
    exact ⟨all [] x xs rfl, fun before y after split => all _ y after (by rw [split]; rfl)⟩
  · rintro ⟨first, later⟩ before y after split
    cases before with
    | nil =>
      cases split
      exact first
    | cons z before =>
      cases split
      exact later before y after rfl

theorem List.forall_split_append {α : Type} {P : List α → α → List α → Prop} {front back : List α} :
    (∀ before y after, front ++ back = before ++ y :: after → P before y after) ↔
      (∀ before y after, front = before ++ y :: after → P before y (after ++ back)) ∧
        ∀ before y after, back = before ++ y :: after → P (front ++ before) y after := by
  induction front generalizing P with
  | nil => simp
  | cons x front ih => simp only [cons_append, forall_split_cons, ih, and_assoc]

/-- What a receiver does with what it keeps. -/
inductive Progress (σ β : Type) where
  | wait
  | refuse (state : σ) (rest : List β)
  | advance (state : σ) (rest : List β)

/-- A receiver of a stream of `β`. -/
structure Receiver (σ β : Type) where
  /-- Whether it still takes anything. -/
  opened : σ → Bool
  /-- How much it may keep. -/
  limit : σ → Nat
  /-- One step, under the limit in force when the chunk arrived. -/
  step : Nat → σ → List β → Progress σ β
  measure : σ → List β → Nat
  decreases : ∀ {limit state kept next rest}, step limit state kept = .advance next rest →
    measure next rest < measure state kept

/-- A part of the stream that is used in one step. -/
structure Frame where
  size : Nat
  /-- The size that it announces, which has to be within the limit. -/
  claim : Nat
  /-- Parts of the frame that are shorter are waited on, the others are refused. -/
  tolerated : Nat
  /-- The limit in force while the frame is awaited. -/
  limit : Nat
  deriving DecidableEq, Repr

namespace Frame

open List

/-- The length of a sequence of frames. -/
def total (frames : List Frame) : Nat :=
  (frames.map size).sum

@[simp] theorem total_nil : total [] = 0 :=
  rfl

@[simp] theorem total_cons (frame : Frame) (frames : List Frame) :
    total (frame :: frames) = frame.size + total frames := by
  simp [total]

@[simp] theorem total_append (front back : List Frame) :
    total (front ++ back) = total front + total back := by
  simp [total]

/-- With `held` of the frames at hand, no frame that is complete announces more than `limit`, and
the one that is not complete can be waited on. -/
def Passable (limit held : Nat) (frames : List Frame) : Prop :=
  ∀ before frame after, frames = before ++ frame :: after →
    (total before + frame.size ≤ held → frame.claim ≤ limit) ∧
    (held < total before + frame.size → held < total before + frame.tolerated)

/-- The chunk from `start` to `stop` does not disturb the receiver. Under the limit in force at
`start`, it fits together with the part of the awaited frame that came before, and no frame that it
completes announces more than the limit. Its end can be waited at. -/
def ChunkFits (frames : List Frame) (start stop : Nat) : Prop :=
  ∀ before awaited after, frames = before ++ awaited :: after →
    total before ≤ start → start < total before + awaited.size →
      stop ≤ total before + awaited.limit ∧
      ∀ earlier frame later, frames = earlier ++ frame :: later →
        (start < total earlier + frame.size → total earlier + frame.size ≤ stop →
          frame.claim ≤ awaited.limit) ∧
        (stop < total earlier + frame.size → stop < total earlier + frame.tolerated)

theorem passable_nil (limit held : Nat) : Passable limit held [] := by
  intro before frame after split
  simp at split

section Splits

variable {limit held : Nat} {frame : Frame} {frames : List Frame}

/-- A complete frame in front only adds its own condition. -/
theorem passable_cons_of_le (complete : frame.size ≤ held) :
    Passable limit held (frame :: frames) ↔
      frame.claim ≤ limit ∧ Passable limit (held - frame.size) frames := by
  simp only [Passable, forall_split_cons, total_nil, total_cons]
  refine and_congr (by omega) (forall₄_congr fun before other after _ => ?_)
  omega

/-- Behind an incomplete frame nothing has come yet. -/
theorem passable_cons_of_lt (incomplete : held < frame.size) :
    Passable limit held (frame :: frames) ↔ held < frame.tolerated := by
  simp only [Passable, forall_split_cons, total_nil, total_cons]
  constructor
  · rintro ⟨own, -⟩
    omega
  · intro tolerated
    refine ⟨by omega, fun before other after _ => ?_⟩
    omega

/-- The conditions on a chunk, from the frame that is awaited when it arrives. -/
theorem chunkFits_iff {front : List Frame} {awaited : Frame} {size : Nat}
    (incomplete : held < awaited.size) :
    ChunkFits (front ++ awaited :: frames) (total front + held) (total front + held + size) ↔
      held + size ≤ awaited.limit ∧ Passable awaited.limit (held + size) (awaited :: frames) := by
  have ended : ∀ before frame after, front = before ++ frame :: after →
      total before + frame.size ≤ total front := by
    rintro before frame after rfl
    simp only [total_append, total_cons]
    omega
  simp only [ChunkFits, Passable, forall_split_append, forall_split_cons, total_append,
    total_nil, total_cons]
  constructor
  · rintro ⟨-, own, -⟩
    obtain ⟨room, -, first, later⟩ := own (by omega) (by omega)
    refine ⟨by omega, by omega, fun before frame after split => ?_⟩
    have conditions := later before frame after split
    omega
  · rintro ⟨room, first, later⟩
    -- the awaited frame is the only one that is under way
    refine ⟨fun before other after split _ open' => ?_, fun _ _ => ⟨by omega, ?_, by omega, ?_⟩,
      fun before other after _ reached => ?_⟩
    · have := ended before other after split
      omega
    · intro before frame after split
      have := ended before frame after split
      omega
    · intro before frame after split
      have conditions := later before frame after split
      omega
    · omega

end Splits

end Frame

namespace Receiver

variable {σ β : Type} (receiver : Receiver σ β)

/-- The steps that can be taken with what is kept. -/
def loop (limit : Nat) (state : σ) (kept : List β) : Bool × σ × List β :=
  match _step : receiver.step limit state kept with
  | .wait => (true, state, kept)
  | .refuse state rest => (false, state, rest)
  | .advance next rest => loop limit next rest
  termination_by receiver.measure state kept
  decreasing_by exact receiver.decreases _step

/-- A chunk arrives. -/
def receive (state : σ) (kept chunk : List β) : Bool × σ × List β :=
  if receiver.opened state = false then
    (false, state, kept)
  else if receiver.limit state < kept.length + chunk.length then
    (false, state, kept)
  else
    receiver.loop (receiver.limit state) state (kept ++ chunk)

/-- Chunks arrive one by one, until one is not accepted. -/
def feed : σ → List β → List (List β) → Bool × σ × List β
  | state, kept, [] => (true, state, kept)
  | state, kept, chunk :: chunks =>
    match receiver.receive state kept chunk with
    | (true, next, rest) => feed next rest chunks
    | refused => refused

/-- The receiver is in `state`, and the frames, whose contents are `stream`, lead it to `last`. -/
inductive Expects : σ → List Frame → List β → σ → Prop where
  | done {state : σ} (idle : ∀ limit, receiver.step limit state [] = .wait) :
      Expects state [] [] state
  | frame {state next last : σ} {frame : Frame} {part stream : List β} {frames : List Frame}
      (size : part.length = frame.size)
      (opened : receiver.opened state = true)
      (limit : receiver.limit state = frame.limit)
      (used : ∀ limit rest, frame.claim ≤ limit →
        receiver.step limit state (part ++ rest) = .advance next rest)
      (excessive : ∀ limit rest, limit < frame.claim →
        ∃ refused left, receiver.step limit state (part ++ rest) = .refuse refused left)
      (awaited : ∀ limit {kept}, kept <+: part → kept.length < frame.size →
        kept.length < frame.tolerated → receiver.step limit state kept = .wait)
      (broken : ∀ limit {kept}, kept <+: part → kept.length < frame.size →
        frame.tolerated ≤ kept.length →
        ∃ refused left, receiver.step limit state kept = .refuse refused left)
      (later : Expects next frames stream last) :
      Expects state (frame :: frames) (part ++ stream) last

variable {receiver}
variable {state : σ} {kept : List β}
variable {limit : Nat} {rest stream : List β} {last : σ} {frames : List Frame}

theorem loop_wait (waits : receiver.step limit state kept = .wait) :
    receiver.loop limit state kept = (true, state, kept) := by
  rw [loop]
  split <;> simp_all

theorem loop_refuse {refused : σ} {left : List β}
    (refuses : receiver.step limit state kept = .refuse refused left) :
    receiver.loop limit state kept = (false, refused, left) := by
  rw [loop]
  split <;> simp_all

theorem loop_advance {next : σ} (advances : receiver.step limit state kept = .advance next rest) :
    receiver.loop limit state kept = receiver.loop limit next rest := by
  rw [loop]
  split <;> simp_all

/-- What every step keeps, the loop keeps. -/
theorem loop_keeps (inv : σ → Prop)
    (keeps : ∀ limit state kept next rest, inv state → receiver.step limit state kept = .advance next rest → inv next)
    {next : σ} (holds : inv state) (accepts : receiver.loop limit state kept = (true, next, rest)) :
    inv next := by
  induction state, kept using Receiver.loop.induct receiver limit with
  | case1 state kept waits =>
    rw [loop_wait waits] at accepts
    cases accepts
    exact holds
  | case2 state kept refused left refuses =>
    rw [loop_refuse refuses] at accepts
    cases accepts
  | case3 state kept between left advances ih =>
    rw [loop_advance advances] at accepts
    exact ih (keeps _ _ _ _ _ holds advances) accepts

/-- Where the receiver stands between two chunks: the frames before are used, and of the one that
is awaited a part is kept. -/
structure Between (receiver : Receiver σ β) (state : σ) (kept : List β) (frames : List Frame)
    (stream : List β) (last : σ) : Prop where
  expects : receiver.Expects state frames (kept ++ stream) last
  incomplete : ∀ frame ∈ frames.head?, kept.length < frame.size
  finished : frames = [] → kept = []

/-- The loop accepts exactly what is passable, and then waits in front of the rest. -/
theorem Expects.loop {whole : List β} (expects : receiver.Expects state frames whole last)
    (limit : Nat) (cut : whole = kept ++ stream) :
    (Frame.Passable limit kept.length frames → ∃ next rest front back,
      receiver.loop limit state kept = (true, next, rest) ∧ frames = front ++ back ∧
      kept.length = Frame.total front + rest.length ∧
      receiver.Between next rest back stream last) ∧
    (¬ Frame.Passable limit kept.length frames → (receiver.loop limit state kept).1 = false) := by
  induction expects generalizing kept with
  | done idle =>
    obtain ⟨rfl, rfl⟩ := List.append_eq_nil_iff.mp cut.symm
    constructor
    · intro _
      exact ⟨_, [], [], [], loop_wait (idle limit), rfl, rfl, .done idle, by simp, fun _ => rfl⟩
    · intro impassable
      exact absurd (Frame.passable_nil _ _) impassable
  | @frame state next last frame part after frames size opened bound used excessive awaited broken
      later ih =>
      by_cases complete : frame.size ≤ kept.length
      · -- the frame is complete: one step, then the rest
        obtain ⟨rest, rfl, rfl⟩ : ∃ rest, kept = part ++ rest ∧ after = rest ++ stream := by
          obtain ⟨rest, kept_eq, rest_eq⟩ | ⟨rest, part_eq, rest_eq⟩ :=
            List.append_eq_append_iff.mp cut
          · exact ⟨rest, kept_eq, rest_eq⟩
          · have lengths := congrArg List.length part_eq
            rw [List.length_append] at lengths
            have nothing : rest = [] := List.eq_nil_of_length_eq_zero (by omega)
            subst nothing
            exact ⟨[], by simpa using part_eq.symm, by simpa using rest_eq.symm⟩
        rw [Frame.passable_cons_of_le complete, List.length_append, size, Nat.add_sub_cancel_left]
        obtain ⟨accepts, rejects⟩ := ih rfl
        constructor
        · rintro ⟨claim, passable⟩
          obtain ⟨final, left, front, back, run, rfl, lengths, between⟩ := accepts passable
          refine ⟨final, left, frame :: front, back, ?_, rfl, ?_, between⟩
          · rw [loop_advance (used limit rest claim), run]
          · rw [Frame.total_cons, lengths, Nat.add_assoc]
        · intro impassable
          by_cases claim : frame.claim ≤ limit
          · rw [loop_advance (used limit rest claim)]
            exact rejects fun passable => impassable ⟨claim, passable⟩
          · obtain ⟨refused, left, refuses⟩ := excessive limit rest (by omega)
            rw [loop_refuse refuses]
      · -- the frame is under way
        have incomplete : kept.length < frame.size := by omega
        have part_of : kept <+: part := by
          apply List.prefix_of_prefix_length_le (List.prefix_append kept stream)
          · rw [← cut]
            exact List.prefix_append part after
          · omega
        rw [Frame.passable_cons_of_lt incomplete]
        constructor
        · intro tolerated
          refine ⟨state, kept, [], frame :: frames,
            loop_wait (awaited limit part_of incomplete tolerated), rfl, by simp, ?_, ?_, ?_⟩
          · rw [← cut]
            exact .frame size opened bound used excessive awaited broken later
          · simpa using incomplete
          · intro none
            cases none
        · intro intolerable
          obtain ⟨refused, left, refuses⟩ := broken limit part_of incomplete (by omega)
          rw [loop_refuse refuses]

/-- One chunk is accepted exactly if it fits. -/
theorem Between.receive {chunk : List β}
    (between : receiver.Between state kept frames (chunk ++ stream) last) (front : List Frame)
    (nonempty : chunk ≠ []) :
    (Frame.ChunkFits (front ++ frames) (Frame.total front + kept.length)
      (Frame.total front + kept.length + chunk.length) → ∃ next rest used back,
      receiver.receive state kept chunk = (true, next, rest) ∧ frames = used ++ back ∧
      kept.length + chunk.length = Frame.total used + rest.length ∧
      receiver.Between next rest back stream last) ∧
    (¬ Frame.ChunkFits (front ++ frames) (Frame.total front + kept.length)
      (Frame.total front + kept.length + chunk.length) →
      (receiver.receive state kept chunk).1 = false) := by
  obtain ⟨expects, incomplete, finished⟩ := between
  generalize cut : kept ++ (chunk ++ stream) = whole at expects
  have cut' : whole = kept ++ chunk ++ stream := by rw [List.append_assoc, cut]
  have runs := fun limit => expects.loop limit cut'
  cases expects with
  | done =>
    obtain ⟨-, none⟩ := List.append_eq_nil_iff.mp cut
    exact absurd (List.append_eq_nil_iff.mp none).1 nonempty
  | @frame _ next _ frame part after frames size opened limit =>
    have shorter : kept.length < frame.size := incomplete frame rfl
    rw [Frame.chunkFits_iff shorter, ← limit]
    unfold Receiver.receive
    rw [if_neg (by simp [opened])]
    rw [List.length_append] at runs
    constructor
    · rintro ⟨room, passable⟩
      rw [if_neg (by omega)]
      exact (runs _).1 passable
    · intro unfit
      split
      · rfl
      · rename_i room
        exact (runs _).2 fun passable => unfit ⟨by omega, passable⟩

/-- A receiver accepts the chunks exactly if each of them fits, and then it has used the whole
stream and is where the stream leads. -/
theorem Between.feed {chunks : List (List β)}
    (between : receiver.Between state kept frames chunks.flatten last) (front : List Frame)
    (nonempty : ∀ chunk ∈ chunks, chunk ≠ []) :
    ((receiver.feed state kept chunks).1 = true ↔
      ∀ before chunk after, chunks = before ++ chunk :: after →
        Frame.ChunkFits (front ++ frames) (Frame.total front + kept.length + before.flatten.length)
          (Frame.total front + kept.length + before.flatten.length + chunk.length)) ∧
    ((receiver.feed state kept chunks).1 = true →
      receiver.feed state kept chunks = (true, last, [])) := by
  induction chunks generalizing state kept front frames with
  | nil =>
    obtain ⟨expects, incomplete, finished⟩ := between
    constructor
    · constructor
      · intro _ before chunk after split
        simp at split
      · intro _
        rfl
    · intro _
      rw [List.flatten_nil, List.append_nil] at expects
      cases expects with
      | done => rfl
      | @frame _ next _ frame part after frames size =>
        have := incomplete frame rfl
        rw [List.length_append] at this
        omega
  | cons chunk chunks ih =>
    obtain ⟨accepts, rejects⟩ := between.receive front (nonempty chunk (by simp))
    by_cases fits : Frame.ChunkFits (front ++ frames) (Frame.total front + kept.length)
        (Frame.total front + kept.length + chunk.length)
    · obtain ⟨next, rest, used, back, run, rfl, lengths, between⟩ := accepts fits
      have later := ih between (front ++ used) fun chunk member => nonempty chunk (by simp [member])
      rw [Receiver.feed, run]
      refine ⟨?_, later.2⟩
      rw [later.1, Frame.total_append, List.append_assoc, List.forall_split_cons]
      simp only [List.flatten_nil, List.flatten_cons, List.length_append, List.length_nil,
        Nat.add_zero, fits, true_and]
      refine forall₄_congr fun before other after _ => ?_
      have shifted : Frame.total front + Frame.total used + rest.length = Frame.total front +
          kept.length + chunk.length := by
        omega
      rw [shifted, Nat.add_assoc _ chunk.length]
    · have refused := rejects fits
      have stops : receiver.feed state kept (chunk :: chunks) =
          receiver.receive state kept chunk := by
        rw [Receiver.feed]
        split
        · rename_i run
          rw [run] at refused
          cases refused
        · rfl
      rw [stops, refused]
      constructor
      · constructor
        · intro accepted
          cases accepted
        · intro all
          exact absurd (by simpa using all [] chunk chunks rfl) fits
      · intro accepted
        cases accepted

section Whole

variable {state last : σ} {frames : List Frame} {stream : List β} {chunks : List (List β)}

theorem Expects.between (expects : receiver.Expects state frames stream last)
    (sized : ∀ frame ∈ frames.head?, 0 < frame.size) :
    receiver.Between state [] frames stream last :=
  ⟨expects, sized, fun _ => rfl⟩

variable (expects : receiver.Expects state frames chunks.flatten last)
  (sized : ∀ frame ∈ frames.head?, 0 < frame.size) (nonempty : ∀ chunk ∈ chunks, chunk ≠ [])
include expects sized nonempty

theorem feed_iff :
    (receiver.feed state [] chunks).1 = true ↔
      ∀ before chunk after, chunks = before ++ chunk :: after →
        Frame.ChunkFits frames before.flatten.length (before.flatten.length + chunk.length) := by
  simpa using ((expects.between sized).feed [] nonempty).1

theorem feed_eq (accepted : (receiver.feed state [] chunks).1 = true) :
    receiver.feed state [] chunks = (true, last, []) :=
  ((expects.between sized).feed [] nonempty).2 accepted

end Whole

end Receiver
