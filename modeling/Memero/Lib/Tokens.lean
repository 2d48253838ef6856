import Mathlib.Data.List.DropRight

/-!
# Tokens

A text is cut into tokens at its runs of separators, and blanks are cut off at both ends. Words
that are joined by one separator come back as the tokens of the text.
-/

namespace Tokens

open List

variable {α : Type}

/-- The text without the blanks at its ends. -/
def trim (blank : α → Bool) (text : List α) : List α :=
  (text.dropWhile blank).rdropWhile blank

/-- The tokens between the runs of separators of a text; `inRun` tells whether the text stands
behind a separator. A text that starts or ends with a separator has an empty token there. -/
def split (separator : α → Bool) : Bool → List α → List (List α)
  | _, [] => [[]]
  | inRun, item :: rest =>
    if separator item then
      if inRun then split separator true rest else [] :: split separator true rest
    else
      (split separator false rest).modifyHead (item :: ·)

/-- Words with one separator between any two. -/
def join (item : α) (words : List (List α)) : List α :=
  [item].intercalate words

variable {separator blank : α → Bool} {item : α}

/-- A word without separators. -/
def Free (separator : α → Bool) (word : List α) : Prop :=
  ∀ item ∈ word, separator item = false

variable {word : List α}

theorem Free.tail (free : Free separator (item :: word)) : Free separator word :=
  fun other member => free other (mem_cons_of_mem _ member)

theorem split_of_free (free : Free separator word) (inRun : Bool) :
    split separator inRun word = [word] := by
  induction word generalizing inRun with
  | nil => rfl
  | cons first rest ih =>
    have plain := free first mem_cons_self
    simp [split, plain, ih free.tail]

/-- A word in front of a separator is the first token. -/
theorem split_append_separator (free : Free separator word) (cut : separator item = true)
    (rest : List α) :
    split separator false (word ++ item :: rest) = word :: split separator true rest := by
  induction word with
  | nil => simp [split, cut]
  | cons first others ih =>
    have plain := free first mem_cons_self
    simp [split, plain, ih free.tail]

theorem split_true_eq {text : List α} (plain : ∀ first ∈ text.head?, separator first = false) :
    split separator true text = split separator false text := by
  cases text with
  | nil => rfl
  | cons first rest => simp [split, plain first rfl]

theorem join_cons (word next : List α) (words : List (List α)) :
    join item (word :: next :: words) = word ++ item :: join item (next :: words) := by
  simp [join]

@[simp] theorem join_singleton (word : List α) : join item [word] = word := by
  simp [join]

theorem join_concat (words : List (List α)) (last : List α) :
    join item (words ++ [last]) = words.flatMap (· ++ [item]) ++ last := by
  induction words with
  | nil => rw [nil_append, join_singleton]; rfl
  | cons word words ih =>
    cases words with
    | nil => simp [join_cons]
    | cons next words =>
      rw [cons_append] at ih ⊢
      rw [cons_append, join_cons, ih]
      simp

variable {words : List (List α)}

theorem mem_join {other : α} (member : other ∈ join item words) :
    (∃ word ∈ words, other ∈ word) ∨ other = item := by
  rcases eq_nil_or_concat words with rfl | ⟨front, last, rfl⟩
  · simp [join] at member
  · rw [concat_eq_append] at member ⊢
    rw [join_concat, mem_append, mem_flatMap] at member
    rcases member with ⟨word, listed, inside⟩ | inside
    · rcases mem_append.mp inside with inside | separator
      · exact .inl ⟨word, mem_append_left _ listed, inside⟩
      · exact .inr (mem_singleton.mp separator)
    · exact .inl ⟨last, mem_append_right _ mem_cons_self, inside⟩

theorem head?_join (nonempty : word ≠ []) (words : List (List α)) :
    (join item (word :: words)).head? = word.head? := by
  cases words with
  | nil => rw [join_singleton]
  | cons next words =>
    cases word with
    | nil => exact absurd rfl nonempty
    | cons first rest => rw [join_cons]; rfl

/-- The tokens of joined words are the words. -/
theorem split_join (cut : separator item = true) (some : words ≠ [])
    (free : ∀ word ∈ words, Free separator word) (nonempty : ∀ word ∈ words, word ≠ []) :
    split separator false (join item words) = words := by
  induction words with
  | nil => exact absurd rfl some
  | cons word words ih =>
    cases words with
    | nil => rw [join_singleton, split_of_free (free word mem_cons_self)]
    | cons next words =>
      have others := ih (cons_ne_nil _ _)
        (fun word member => free word (mem_cons_of_mem _ member))
        (fun word member => nonempty word (mem_cons_of_mem _ member))
      have later := nonempty next (mem_cons_of_mem _ mem_cons_self)
      rw [join_cons, split_append_separator (free word mem_cons_self) cut, split_true_eq, others]
      intro first member
      rw [head?_join later] at member
      exact free next (mem_cons_of_mem _ mem_cons_self) first (mem_of_mem_head? member)

theorem getLast?_join {last : List α} (nonempty : last ≠ []) :
    (join item (words ++ [last])).getLast? = last.getLast? := by
  rw [join_concat, getLast?_append, getLast?_eq_some_getLast nonempty]
  rfl

theorem trim_of_ends {text : List α} (first : ∀ item ∈ text.head?, blank item = false)
    (last : ∀ item ∈ text.getLast?, blank item = false) : trim blank text = text := by
  have front : text.dropWhile blank = text := by
    cases text with
    | nil => rfl
    | cons item rest => rw [dropWhile_cons_of_neg (by simp [first item rfl])]
  rw [trim, front, rdropWhile_eq_self_iff]
  intro nonempty
  rw [last _ (getLast_mem_getLast? nonempty)]
  simp

/-- Joined words have no blanks to cut off. -/
theorem trim_join (free : ∀ word ∈ words, Free blank word) (nonempty : ∀ word ∈ words, word ≠ []) :
    trim blank (join item words) = join item words := by
  apply trim_of_ends
  · intro first member
    cases words with
    | nil => simp [join] at member
    | cons word words =>
      rw [head?_join (nonempty word mem_cons_self)] at member
      exact free word mem_cons_self first (mem_of_mem_head? member)
  · intro last member
    rcases eq_nil_or_concat words with rfl | ⟨front, word, rfl⟩
    · simp [join] at member
    · have inside : word ∈ front ++ [word] := mem_append_right _ mem_cons_self
      rw [concat_eq_append] at *
      rw [getLast?_join (nonempty word inside)] at member
      exact free word inside last (mem_of_mem_getLast? member)

end Tokens
