/-!
# Text

Every rule of this library reads its text from the left, one character at a time, and a text is
therefore a list of characters: definitions recurse on it, and proofs follow the same recursion.

* `Text.split` cuts a text at a separator and `Text.joinWith` puts pieces together with one between
  them; `split_joinWith` says that splitting undoes joining.
* `Text.ofNat` and `Text.ofInt` write numbers, `Text.octal` and `Text.hex` in those bases.
* `Text.le` is the order by code point in which names are listed.
-/

namespace TreeSieve

/-- A text is a list of characters. -/
abbrev Text := List Char

namespace Text

/-- The pieces of a text between the occurrences of a separator; there is always at least one. -/
def split (sep : Char) : Text → List Text
  | [] => [[]]
  | c :: cs =>
    if c = sep then [] :: split sep cs
    else
      match split sep cs with
      | [] => [[c]]
      | piece :: pieces => (c :: piece) :: pieces

/-- The pieces in order with the separator between neighbours. -/
def joinWith (sep : Char) : List Text → Text
  | [] => []
  | [piece] => piece
  | piece :: next :: pieces => piece ++ sep :: joinWith sep (next :: pieces)

theorem split_ne_nil (sep : Char) (t : Text) : split sep t ≠ [] := by
  cases t with
  | nil => simp [split]
  | cons c cs =>
    simp only [split]
    split
    · simp
    · split <;> simp

/-- No piece holds the separator. -/
theorem not_mem_of_mem_split {sep : Char} {t piece : Text} (h : piece ∈ split sep t) :
    sep ∉ piece := by
  induction t generalizing piece with
  | nil =>
    rw [split, List.mem_singleton] at h
    simp [h]
  | cons c cs ih =>
    rw [split] at h
    by_cases hc : c = sep
    · rw [if_pos hc, List.mem_cons] at h
      rcases h with rfl | h
      · simp
      · exact ih h
    · rw [if_neg hc] at h
      cases hs : split sep cs with
      | nil => exact absurd hs (split_ne_nil sep cs)
      | cons first pieces =>
        rw [hs] at h ih
        rcases List.mem_cons.mp h with rfl | h
        · rw [List.mem_cons, not_or]
          exact ⟨fun e => hc e.symm, ih List.mem_cons_self⟩
        · exact ih (List.mem_cons_of_mem first h)

/-- A text without the separator is a single piece. -/
theorem split_of_not_mem {sep : Char} {t : Text} (h : sep ∉ t) : split sep t = [t] := by
  induction t with
  | nil => rfl
  | cons c cs ih =>
    rw [List.mem_cons, not_or] at h
    rw [split, if_neg (Ne.symm h.1), ih h.2]

/-- A piece without the separator is cut off at the first separator. -/
theorem split_append_sep {sep : Char} {piece : Text} (h : sep ∉ piece) (t : Text) :
    split sep (piece ++ sep :: t) = piece :: split sep t := by
  induction piece with
  | nil => rw [List.nil_append, split, if_pos rfl]
  | cons c cs ih =>
    rw [List.mem_cons, not_or] at h
    rw [List.cons_append, split, if_neg (Ne.symm h.1), ih h.2]

/-- Splitting undoes joining, as long as no piece holds the separator. -/
theorem split_joinWith {sep : Char} {pieces : List Text} (hne : pieces ≠ [])
    (h : ∀ piece ∈ pieces, sep ∉ piece) : split sep (joinWith sep pieces) = pieces := by
  induction pieces with
  | nil => exact absurd rfl hne
  | cons piece rest ih =>
    have hp : sep ∉ piece := h piece List.mem_cons_self
    cases rest with
    | nil => exact split_of_not_mem hp
    | cons next more =>
      rw [joinWith, split_append_sep hp,
        ih (List.cons_ne_nil next more) fun q hq => h q (List.mem_cons_of_mem piece hq)]

/-- The text without the characters at its end that satisfy the test. -/
def dropEndWhile (test : Char → Bool) (t : Text) : Text :=
  (t.reverse.dropWhile test).reverse

/-- The text of a string constant. -/
def lit (s : String) : Text := s.toList

/-- A number in decimal. -/
def ofNat (n : Nat) : Text := Nat.toDigits 10 n

/-- A number in decimal, with a sign if it is negative. -/
def ofInt : Int → Text
  | .ofNat n => ofNat n
  | .negSucc n => '-' :: ofNat (n + 1)

/-- The name of a truth value. -/
def ofBool (b : Bool) : Text := lit (if b then "True" else "False")

/-- A number in octal. -/
def octal (n : Nat) : Text := Nat.toDigits 8 n

/-- A number in lower-case hexadecimal, with zeros in front up to the given width. -/
def hex (width n : Nat) : Text :=
  let digits := Nat.toDigits 16 n
  List.replicate (width - digits.length) '0' ++ digits

/-- The text set to the right in a field of the given width. -/
def padLeft (width : Nat) (t : Text) : Text := List.replicate (width - t.length) ' ' ++ t

/-- The text set to the left in a field of the given width. -/
def padRight (width : Nat) (t : Text) : Text := t ++ List.replicate (width - t.length) ' '

/-- The order of texts by code point; a text stands before its extensions. -/
def le : Text → Text → Bool
  | [], _ => true
  | _ :: _, [] => false
  | a :: as, b :: bs => if a = b then le as bs else a.toNat ≤ b.toNat

end Text

end TreeSieve
