import Mathlib.Data.List.Basic
import Mathlib.Tactic.Common

/-!
# Binary formats

A format says how the values of a type are written, and how one is read off the front of some
input. Writing and reading make the same checks, so a value that is not `valid` is neither
written nor read. There are two ways to read: a strict reader refuses a number that the end of
the input cuts off, a lenient one takes what there is. A format carries the proofs that reading
undoes writing, that what is read can be written, that a strict reader only accepts what is
written, and that a lenient reader differs from the strict one only at the end of the input.
-/

/-- A binary format. -/
structure BinaryFormat (α : Type) where
  /-- The values that can be written without loss. -/
  Fits : α → Prop
  /-- The checks made on both sides. -/
  valid : α → Bool
  write : α → List UInt8
  /-- The value and the rest of the input; the flag says whether the reader is strict. -/
  read : Bool → List UInt8 → Option (α × List UInt8)
  read_write : ∀ strict {x} rest, Fits x → valid x = true →
    read strict (write x ++ rest) = some (x, rest)
  read_sound : ∀ {strict input x rest}, read strict input = some (x, rest) → Fits x ∧ valid x = true
  write_read : ∀ {input x rest}, read true input = some (x, rest) → input = write x ++ rest
  cut_off : ∀ {input x rest}, read false input = some (x, rest) →
    read true input = some (x, rest) ∨ rest = []

namespace BinaryFormat

open List Option

variable {α β : Type}

section Facts

variable (format : BinaryFormat α)

/-- The whole input as one value. -/
def decode (strict : Bool) (input : List UInt8) : Option α :=
  match format.read strict input with
  | some (x, []) => some x
  | _ => none

/-- The bytes of a value that passes the checks. -/
def encode (x : α) : Option (List UInt8) :=
  if format.valid x then some (format.write x) else none

variable {format}
variable {input : List UInt8}
variable {x : α}

theorem decode_eq_some {strict : Bool} :
    format.decode strict input = some x ↔ format.read strict input = some (x, []) := by
  unfold decode
  split
  · rename_i y found
    rw [found]
    simp
  · rename_i other
    constructor
    · intro none
      cases none
    · intro found
      exact absurd found (other x)

theorem encode_eq_some {bytes : List UInt8} :
    format.encode x = some bytes ↔ format.valid x = true ∧ format.write x = bytes := by
  unfold encode
  split
  · rename_i holds
    simp [holds]
  · rename_i fails
    simp [fails]

theorem lenient_of_strict {result : α × List UInt8} (found : format.read true input = some result) :
    format.read false input = some result := by
  obtain ⟨x, rest⟩ := result
  obtain ⟨fits, valid⟩ := format.read_sound found
  rw [format.write_read found]
  exact format.read_write false rest fits valid

/-- Written values can be told apart whatever follows them. -/
theorem write_append_inj {y : α} {left right : List UInt8} (fits : format.Fits x)
    (valid : format.valid x = true) (otherFits : format.Fits y) (otherValid : format.valid y = true)
    (same : format.write x ++ left = format.write y ++ right) : x = y ∧ left = right := by
  have first := format.read_write true left fits valid
  rw [same, format.read_write true right otherFits otherValid] at first
  cases first
  exact ⟨rfl, rfl⟩

theorem write_inj {y : α} (fits : format.Fits x) (valid : format.valid x = true)
    (otherFits : format.Fits y) (otherValid : format.valid y = true)
    (same : format.write x = format.write y) : x = y :=
  (write_append_inj fits valid otherFits otherValid (congrArg (· ++ []) same)).1

theorem decode_write (strict : Bool) (fits : format.Fits x) (valid : format.valid x = true) :
    format.decode strict (format.write x) = some x := by
  rw [decode_eq_some, ← format.read_write strict [] fits valid, append_nil]

theorem encode_of_decode (found : format.decode true input = some x) :
    format.encode x = some input := by
  have read := decode_eq_some.mp found
  rw [encode_eq_some, format.write_read read, append_nil]
  exact ⟨(format.read_sound read).2, rfl⟩

/-- A lenient reader can accept more than what is written, but only where a number is cut off. -/
theorem encode_of_decode_iff (found : format.decode false input = some x) :
    format.encode x = some input ↔ (format.read true input).isSome = true := by
  have read := decode_eq_some.mp found
  constructor
  · intro encoded
    obtain ⟨fits, valid⟩ := format.read_sound read
    have written := format.read_write true [] fits valid
    rw [append_nil, (encode_eq_some.mp encoded).2] at written
    rw [written, isSome_some]
  · intro strict
    obtain ⟨result, accepted⟩ := isSome_iff_exists.mp strict
    have same := lenient_of_strict accepted
    rw [read] at same
    cases same
    exact encode_of_decode (decode_eq_some.mpr accepted)

/-- Nothing is left of an empty input. -/
theorem read_nil {rest : List UInt8} (found : format.read false [] = some (x, rest)) :
    rest = [] := by
  rcases format.cut_off found with strict | ended
  · exact (append_eq_nil_iff.mp (format.write_read strict).symm).2
  · exact ended

end Facts

/-- The end of the input cuts off no number: what a lenient reader accepts a strict one does. -/
def Whole (format : BinaryFormat α) : Prop :=
  ∀ input result, format.read false input = some result → format.read true input = some result

/-! ## Building blocks -/

/-- A value that is not written. -/
def constant (value : α) : BinaryFormat α where
  Fits x := x = value
  valid _ := true
  write _ := []
  read _ input := some (value, input)
  read_write := by
    rintro _ x rest rfl _
    rfl
  read_sound := by
    intro _ input x rest found
    cases found
    exact ⟨rfl, rfl⟩
  write_read := by
    intro input x rest found
    cases found
    rfl
  cut_off found := .inl found

/-- No value at all. -/
def refuse : BinaryFormat α where
  Fits _ := True
  valid _ := false
  write _ := []
  read _ _ := none
  read_write := by
    intro _ _ _ _ valid
    cases valid
  read_sound := by
    intro _ _ _ _ found
    cases found
  write_read := by
    intro _ _ _ found
    cases found
  cut_off := by
    intro _ _ _ found
    cases found

/-- A fixed number of bytes. -/
def fixed (width : Nat) (toBytes : α → List UInt8) (ofBytes : List UInt8 → α) (Fits : α → Prop)
    (length : ∀ x, (toBytes x).length = width)
    (ofBytes_toBytes : ∀ x, Fits x → ofBytes (toBytes x) = x)
    (toBytes_ofBytes : ∀ bytes : List UInt8, bytes.length = width →
      Fits (ofBytes bytes) ∧ toBytes (ofBytes bytes) = bytes) : BinaryFormat α where
  Fits := Fits
  valid _ := true
  write := toBytes
  read _ input :=
    if input.length < width then none else some (ofBytes (input.take width), input.drop width)
  read_write := by
    intro _ x rest fits _
    have long : ¬ (toBytes x ++ rest).length < width := by
      rw [List.length_append, length x]
      omega
    rw [if_neg long, List.take_left' (length x), List.drop_left' (length x), ofBytes_toBytes x fits]
  read_sound := by
    intro _ input x rest found
    split at found
    · cases found
    · rename_i long
      cases found
      refine ⟨(toBytes_ofBytes _ ?_).1, rfl⟩
      rw [List.length_take]
      omega
  write_read := by
    intro input x rest found
    split at found
    · cases found
    · rename_i long
      cases found
      rw [(toBytes_ofBytes _ ?_).2, List.take_append_drop]
      rw [List.length_take]
      omega
  cut_off found := .inl found

/-- One byte that names one of a few cases. -/
def tag [DecidableEq α] (toByte : α → UInt8) (ofByte : UInt8 → Option α)
    (law : ∀ byte x, ofByte byte = some x ↔ toByte x = byte) : BinaryFormat α where
  Fits _ := True
  valid _ := true
  write x := [toByte x]
  read _
    | [] => none
    | byte :: rest => (ofByte byte).map (·, rest)
  read_write := by
    intro _ x rest _ _
    have found := (law (toByte x) x).mpr rfl
    simp only [List.singleton_append, found, Option.map_some]
  read_sound _ := ⟨trivial, rfl⟩
  write_read := by
    intro input x rest found
    cases input with
    | nil => cases found
    | cons byte more =>
      obtain ⟨y, named, same⟩ := Option.map_eq_some_iff.mp found
      cases same
      rw [(law byte x).mp named]
      rfl
  cut_off found := .inl found

/-- One value after another; what follows may depend on what came before. -/
def seq (first : BinaryFormat α) (second : α → BinaryFormat β) : BinaryFormat (α × β) where
  Fits pair := first.Fits pair.1 ∧ (second pair.1).Fits pair.2
  valid pair := first.valid pair.1 && (second pair.1).valid pair.2
  write pair := first.write pair.1 ++ (second pair.1).write pair.2
  read strict input := do
    let (x, middle) ← first.read strict input
    let (y, rest) ← (second x).read strict middle
    return ((x, y), rest)
  read_write := by
    rintro strict ⟨x, y⟩ rest ⟨firstFits, secondFits⟩ valid
    obtain ⟨firstValid, secondValid⟩ := Bool.and_eq_true_iff.mp valid
    rw [List.append_assoc, first.read_write strict _ firstFits firstValid]
    simp only [Option.bind_eq_bind, Option.bind_some]
    rw [(second x).read_write strict rest secondFits secondValid]
    rfl
  read_sound := by
    rintro strict input ⟨x, y⟩ rest found
    obtain ⟨⟨x, middle⟩, one, more⟩ := Option.bind_eq_some_iff.mp found
    obtain ⟨⟨y, rest⟩, two, same⟩ := Option.bind_eq_some_iff.mp more
    cases same
    obtain ⟨firstFits, firstValid⟩ := first.read_sound one
    obtain ⟨secondFits, secondValid⟩ := (second x).read_sound two
    exact ⟨⟨firstFits, secondFits⟩, Bool.and_eq_true_iff.mpr ⟨firstValid, secondValid⟩⟩
  write_read := by
    rintro input ⟨x, y⟩ rest found
    obtain ⟨⟨x, middle⟩, one, more⟩ := Option.bind_eq_some_iff.mp found
    obtain ⟨⟨y, rest⟩, two, same⟩ := Option.bind_eq_some_iff.mp more
    cases same
    rw [first.write_read one, (second x).write_read two, List.append_assoc]
  cut_off := by
    rintro input ⟨x, y⟩ rest found
    obtain ⟨⟨x, middle⟩, one, more⟩ := Option.bind_eq_some_iff.mp found
    obtain ⟨⟨y, rest⟩, two, same⟩ := Option.bind_eq_some_iff.mp more
    cases same
    rcases first.cut_off one with strict | rfl
    · rcases (second x).cut_off two with alsoStrict | ended
      · left
        rw [strict]
        simp only [Option.bind_eq_bind, Option.bind_some]
        rw [alsoStrict]
        rfl
      · exact .inr ended
    · exact .inr (read_nil two)

/-- The values that pass a further check. -/
def guard (format : BinaryFormat α) (check : α → Bool) : BinaryFormat α where
  Fits := format.Fits
  valid x := format.valid x && check x
  write := format.write
  read strict input := (format.read strict input).filter fun result => check result.1
  read_write := by
    intro strict x rest fits valid
    obtain ⟨inner, checked⟩ := Bool.and_eq_true_iff.mp valid
    rw [format.read_write strict rest fits inner, Option.filter_some, if_pos checked]
  read_sound := by
    intro strict input x rest found
    obtain ⟨inner, checked⟩ := Option.filter_eq_some_iff.mp found
    obtain ⟨fits, valid⟩ := format.read_sound inner
    exact ⟨fits, Bool.and_eq_true_iff.mpr ⟨valid, checked⟩⟩
  write_read := by
    intro input x rest found
    exact format.write_read (Option.filter_eq_some_iff.mp found).1
  cut_off := by
    intro input x rest found
    obtain ⟨inner, checked⟩ := Option.filter_eq_some_iff.mp found
    rcases format.cut_off inner with strict | ended
    · exact .inl (Option.filter_eq_some_iff.mpr ⟨strict, checked⟩)
    · exact .inr ended

/-- The same bytes for another type. -/
def map (format : BinaryFormat α) (build : α → β) (parts : β → α)
    (parts_build : ∀ x, format.Fits x → format.valid x = true → parts (build x) = x) :
    BinaryFormat β where
  Fits y := format.Fits (parts y) ∧ build (parts y) = y
  valid y := format.valid (parts y)
  write y := format.write (parts y)
  read strict input := (format.read strict input).map fun result => (build result.1, result.2)
  read_write := by
    rintro strict y rest ⟨fits, same⟩ valid
    rw [format.read_write strict rest fits valid, Option.map_some, same]
  read_sound := by
    intro strict input y rest found
    obtain ⟨⟨x, rest⟩, inner, same⟩ := Option.map_eq_some_iff.mp found
    cases same
    obtain ⟨fits, valid⟩ := format.read_sound inner
    simp only [parts_build x fits valid]
    exact ⟨⟨fits, trivial⟩, valid⟩
  write_read := by
    intro input y rest found
    obtain ⟨⟨x, rest⟩, inner, same⟩ := Option.map_eq_some_iff.mp found
    cases same
    obtain ⟨fits, valid⟩ := format.read_sound inner
    rw [parts_build x fits valid]
    exact format.write_read inner
  cut_off := by
    intro input y rest found
    obtain ⟨⟨x, rest⟩, inner, same⟩ := Option.map_eq_some_iff.mp found
    cases same
    rcases format.cut_off inner with strict | ended
    · exact .inl (Option.map_eq_some_iff.mpr ⟨_, strict, rfl⟩)
    · exact .inr ended

/-- Reading that first looks whether some number of bytes is left. -/
def enough (format : BinaryFormat α) (count : Nat)
    (long : ∀ x, format.Fits x → format.valid x = true → count ≤ (format.write x).length) :
    BinaryFormat α where
  Fits := format.Fits
  valid := format.valid
  write := format.write
  read strict input := if input.length < count then none else format.read strict input
  read_write := by
    intro strict x rest fits valid
    have left : ¬ (format.write x ++ rest).length < count := by
      have := long x fits valid
      rw [List.length_append]
      omega
    rw [if_neg left]
    exact format.read_write strict rest fits valid
  read_sound := by
    intro strict input x rest found
    split at found
    · cases found
    · exact format.read_sound found
  write_read := by
    intro input x rest found
    split at found
    · cases found
    · exact format.write_read found
  cut_off := by
    intro input x rest found
    split at found
    · cases found
    · rename_i left
      rw [if_neg left]
      exact format.cut_off found

/-! ## Lists -/

/-- Some number of values. -/
def readMany (read : List UInt8 → Option (α × List UInt8)) :
    Nat → List UInt8 → Option (List α × List UInt8)
  | 0, input => some ([], input)
  | count + 1, input => do
      let (x, middle) ← read input
      let (xs, rest) ← readMany read count middle
      return (x :: xs, rest)

theorem readMany_succ {read : List UInt8 → Option (α × List UInt8)} {count : Nat}
    {input rest : List UInt8} {xs : List α} :
    readMany read (count + 1) input = some (xs, rest) ↔
      ∃ x middle more, read input = some (x, middle) ∧
        readMany read count middle = some (more, rest) ∧ xs = x :: more := by
  constructor
  · intro found
    obtain ⟨⟨x, middle⟩, one, others⟩ := bind_eq_some_iff.mp found
    obtain ⟨⟨more, rest⟩, two, same⟩ := bind_eq_some_iff.mp others
    cases same
    exact ⟨x, middle, more, one, two, rfl⟩
  · rintro ⟨x, middle, more, one, two, rfl⟩
    exact bind_eq_some_iff.mpr ⟨_, one, bind_eq_some_iff.mpr ⟨_, two, rfl⟩⟩

section Lists

variable (format : BinaryFormat α)

theorem readMany_write (strict : Bool) {xs : List α} (rest : List UInt8)
    (fits : ∀ x ∈ xs, format.Fits x) (valid : ∀ x ∈ xs, format.valid x = true) :
    readMany (format.read strict) xs.length (xs.flatMap format.write ++ rest) = some (xs, rest) := by
  induction xs with
  | nil => rfl
  | cons x xs ih =>
    rw [length_cons, readMany_succ, flatMap_cons, append_assoc]
    rw [forall_mem_cons] at fits valid
    exact ⟨x, _, xs, format.read_write strict _ fits.1 valid.1, ih fits.2 valid.2, rfl⟩

variable {rest : List UInt8}
variable {input : List UInt8}

theorem readMany_sound {strict : Bool} {count : Nat} {xs : List α}
    (found : readMany (format.read strict) count input = some (xs, rest)) :
    xs.length = count ∧ (∀ x ∈ xs, format.Fits x) ∧ ∀ x ∈ xs, format.valid x = true := by
  induction count generalizing input xs with
  | zero =>
    cases found
    exact ⟨rfl, forall_mem_nil _, forall_mem_nil _⟩
  | succ count ih =>
    obtain ⟨x, middle, more, one, two, rfl⟩ := readMany_succ.mp found
    obtain ⟨fits, valid⟩ := format.read_sound one
    obtain ⟨rfl, allFit, allValid⟩ := ih two
    exact ⟨rfl, forall_mem_cons.mpr ⟨fits, allFit⟩, forall_mem_cons.mpr ⟨valid, allValid⟩⟩

theorem write_readMany {count : Nat} {xs : List α}
    (found : readMany (format.read true) count input = some (xs, rest)) :
    input = xs.flatMap format.write ++ rest := by
  induction count generalizing input xs with
  | zero =>
    cases found
    rfl
  | succ count ih =>
    obtain ⟨x, middle, more, one, two, rfl⟩ := readMany_succ.mp found
    rw [format.write_read one, ih two, flatMap_cons, append_assoc]

theorem readMany_nil {count : Nat} {xs : List α}
    (found : readMany (format.read false) count [] = some (xs, rest)) : rest = [] := by
  induction count generalizing xs with
  | zero =>
    cases found
    rfl
  | succ count ih =>
    obtain ⟨x, middle, more, one, two, -⟩ := readMany_succ.mp found
    cases read_nil one
    exact ih two

theorem readMany_cut_off {count : Nat} {xs : List α}
    (found : readMany (format.read false) count input = some (xs, rest)) :
    readMany (format.read true) count input = some (xs, rest) ∨ rest = [] := by
  induction count generalizing input xs with
  | zero => exact .inl found
  | succ count ih =>
    obtain ⟨x, middle, more, one, two, rfl⟩ := readMany_succ.mp found
    rcases format.cut_off one with strict | rfl
    · rcases ih two with alsoStrict | ended
      · exact .inl (readMany_succ.mpr ⟨x, middle, more, strict, alsoStrict, rfl⟩)
      · exact .inr ended
    · exact .inr (readMany_nil format two)

/-- A list of a known length. -/
def many (count : Nat) : BinaryFormat (List α) where
  Fits xs := ∀ x ∈ xs, format.Fits x
  valid xs := xs.length == count && xs.all format.valid
  write xs := xs.flatMap format.write
  read strict := readMany (format.read strict) count
  read_write := by
    intro strict xs rest fits valid
    obtain ⟨length, all⟩ := Bool.and_eq_true_iff.mp valid
    rw [← beq_iff_eq.mp length]
    exact readMany_write format strict rest fits (List.all_eq_true.mp all)
  read_sound := by
    intro strict input xs rest found
    obtain ⟨length, fits, valid⟩ := readMany_sound format found
    exact ⟨fits, Bool.and_eq_true_iff.mpr ⟨beq_iff_eq.mpr length, List.all_eq_true.mpr valid⟩⟩
  write_read := write_readMany format
  cut_off := readMany_cut_off format

theorem length_le_flatMap (nonempty : ∀ x, format.write x ≠ []) (xs : List α) :
    xs.length ≤ (xs.flatMap format.write).length := by
  induction xs with
  | nil => exact Nat.le_refl 0
  | cons x xs ih =>
    have first := length_pos_iff.mpr (nonempty x)
    rw [flatMap_cons, length_append, length_cons]
    omega

/-- A list after its length. No value is empty, so there are at least as many bytes as values
left after the length, which the reader checks. -/
def vector (counter : BinaryFormat Nat) (nonempty : ∀ x, format.write x ≠ []) :
    BinaryFormat (List α) :=
  (counter.seq fun count => (format.many count).enough count fun xs _ valid => by
    have length := beq_iff_eq.mp (Bool.and_eq_true_iff.mp valid).1
    rw [← length]
    exact format.length_le_flatMap nonempty xs).map Prod.snd (fun xs => (xs.length, xs)) <| by
      rintro ⟨count, xs⟩ _ valid
      have length := beq_iff_eq.mp (Bool.and_eq_true_iff.mp (Bool.and_eq_true_iff.mp valid).2).1
      rw [length]

end Lists

variable {format : BinaryFormat α}
variable {counter : BinaryFormat Nat} {nonempty : ∀ x, format.write x ≠ []} {first : BinaryFormat α}
  {second : α → BinaryFormat β} {pair : α × β} {build : α → β} {parts : β → α}
  {law : ∀ x, format.Fits x → format.valid x = true → parts (build x) = x}

theorem vector_fits {xs : List α} (length : counter.Fits xs.length)
    (all : ∀ x ∈ xs, format.Fits x) : (format.vector counter nonempty).Fits xs :=
  ⟨⟨length, all⟩, rfl⟩

/-! ## The bytes -/

@[simp] theorem seq_write :
    (first.seq second).write pair = first.write pair.1 ++ (second pair.1).write pair.2 :=
  rfl

@[simp] theorem map_write {y : β} : (format.map build parts law).write y = format.write (parts y) :=
  rfl

/-! ## The checks -/

@[simp] theorem seq_valid :
    (first.seq second).valid pair = true ↔
      first.valid pair.1 = true ∧ (second pair.1).valid pair.2 = true :=
  Bool.and_eq_true_iff

@[simp] theorem guard_valid {check : α → Bool} {x : α} :
    (format.guard check).valid x = true ↔ format.valid x = true ∧ check x = true :=
  Bool.and_eq_true_iff

@[simp] theorem map_valid {y : β} :
    (format.map build parts law).valid y = true ↔ format.valid (parts y) = true :=
  Iff.rfl

@[simp] theorem many_valid {count : Nat} {xs : List α} :
    (format.many count).valid xs = true ↔ xs.length = count ∧ ∀ x ∈ xs, format.valid x = true := by
  unfold many
  simp only [Bool.and_eq_true, beq_iff_eq, List.all_eq_true]

@[simp] theorem vector_valid {xs : List α} :
    (format.vector counter nonempty).valid xs = true ↔
      counter.valid xs.length = true ∧ ∀ x ∈ xs, format.valid x = true := by
  unfold vector
  rw [map_valid, seq_valid]
  have inner := @many_valid _ format xs.length xs
  unfold enough
  simp only [inner, true_and]

/-! ## Input that is needed -/

/-- Nothing is read off an empty input. -/
def Needs (format : BinaryFormat α) : Prop :=
  format.read false [] = none

namespace Needs

theorem tag [DecidableEq α] {toByte : α → UInt8} {ofByte : UInt8 → Option α}
    {law : ∀ byte x, ofByte byte = some x ↔ toByte x = byte} :
    (BinaryFormat.tag toByte ofByte law).Needs :=
  rfl

variable {format first : BinaryFormat α} {second : α → BinaryFormat β}

theorem map (needs : format.Needs) {build : α → β} {parts : β → α}
    {law : ∀ x, format.Fits x → format.valid x = true → parts (build x) = x} :
    (format.map build parts law).Needs :=
  map_eq_none_iff.mpr needs

theorem seq_left (needs : first.Needs) : (first.seq second).Needs :=
  congrArg (bind · _) needs

theorem seq_right (needs : ∀ x, (second x).Needs) : (first.seq second).Needs := by
  apply eq_none_iff_forall_ne_some.mpr
  intro result found
  obtain ⟨⟨x, middle⟩, one, more⟩ := bind_eq_some_iff.mp found
  obtain ⟨⟨y, rest⟩, two, -⟩ := bind_eq_some_iff.mp more
  cases read_nil one
  rw [needs x] at two
  cases two

theorem many (needs : format.Needs) {count : Nat} (some : count ≠ 0) :
    (format.many count).Needs := by
  obtain ⟨count, rfl⟩ := Nat.exists_eq_succ_of_ne_zero some
  exact congrArg (bind · _) needs

end Needs

/-! ## Numbers that are not cut off -/

namespace Whole

theorem refuse : (BinaryFormat.refuse : BinaryFormat α).Whole :=
  fun _ _ found => found

variable {format first : BinaryFormat α} {second : α → BinaryFormat β}

theorem map (whole : format.Whole) {build : α → β} {parts : β → α}
    {law : ∀ x, format.Fits x → format.valid x = true → parts (build x) = x} :
    (format.map build parts law).Whole := by
  intro input result found
  obtain ⟨inner, same, rfl⟩ := map_eq_some_iff.mp found
  exact map_eq_some_iff.mpr ⟨inner, whole _ _ same, rfl⟩

theorem guard (whole : format.Whole) (check : α → Bool) : (format.guard check).Whole := by
  intro input result found
  obtain ⟨inner, checked⟩ := filter_eq_some_iff.mp found
  exact filter_eq_some_iff.mpr ⟨whole _ _ inner, checked⟩

theorem many (whole : format.Whole) (count : Nat) : (format.many count).Whole := by
  rintro input ⟨xs, rest⟩ found
  induction count generalizing input xs with
  | zero => exact found
  | succ count ih =>
    obtain ⟨x, middle, more, one, two, rfl⟩ := readMany_succ.mp found
    exact readMany_succ.mpr ⟨x, middle, more, whole _ _ one, ih _ _ two, rfl⟩

theorem seq (one : first.Whole) (two : ∀ x, (second x).Whole) : (first.seq second).Whole := by
  rintro input ⟨⟨x, y⟩, rest⟩ found
  obtain ⟨⟨x, middle⟩, left, more⟩ := bind_eq_some_iff.mp found
  obtain ⟨⟨y, rest⟩, right, same⟩ := bind_eq_some_iff.mp more
  cases same
  exact bind_eq_some_iff.mpr ⟨_, one _ _ left, bind_eq_some_iff.mpr ⟨_, two x _ _ right, rfl⟩⟩

/-- A number that is cut off is noticed by whatever needs more input. -/
theorem seq_of_needs (needs : ∀ x, (second x).Needs) (two : ∀ x, (second x).Whole) :
    (first.seq second).Whole := by
  rintro input ⟨⟨x, y⟩, rest⟩ found
  obtain ⟨⟨x, middle⟩, left, more⟩ := bind_eq_some_iff.mp found
  obtain ⟨⟨y, rest⟩, right, same⟩ := bind_eq_some_iff.mp more
  cases same
  rcases first.cut_off left with strict | rfl
  · exact bind_eq_some_iff.mpr
      ⟨_, strict, bind_eq_some_iff.mpr ⟨_, two x _ _ right, rfl⟩⟩
  · rw [needs x] at right
    cases right

end Whole

end BinaryFormat
