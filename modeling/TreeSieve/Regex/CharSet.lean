import TreeSieve.Text.Alphanumeric
import TreeSieve.Text.Blank
import TreeSieve.Text.Casing
import TreeSieve.Text.Decimal

/-!
# Sets of characters

A set is a list of items, taken as their union or as its complement.

* `CharSet.contains` is membership. A set that ignores case holds a character if it holds one that
  counts as the same letter; `CharItem.containsVariant` says where this ends beyond the basic plane.
-/

namespace TreeSieve

/-- A class of characters with a name of its own. -/
inductive CharClass where
  | digit
  | blank
  | word
  deriving DecidableEq, Repr

/-- Whether a character belongs to a class; words are made of letters, numerals and underscores. -/
def CharClass.contains : CharClass → Char → Bool
  | digit, c => Text.isDecimalDigit c
  | blank, c => Text.isBlank c
  | word, c => Text.isAlphanumeric c || c == '_'

/-- A part of a set: a code point, a range with both ends, or a class or its complement. Code points
that no character has may stand in a set; they add nothing to it. -/
inductive CharItem where
  | single (code : Nat)
  | range (first last : Nat)
  | ofClass (cls : CharClass) (negated : Bool)
  deriving DecidableEq, Repr

namespace CharItem

/-- The last code point of the basic plane, in which letter case is looked up in tables of
variants. -/
def lastBasicCode : Nat := 0xFFFF

/-- Whether an item holds a character. -/
def contains : CharItem → Char → Bool
  | single code, c => c.toNat == code
  | range first last, c => first ≤ c.toNat && c.toNat ≤ last
  | ofClass cls negated, c => cls.contains c != negated

/-- Whether an item of a set that ignores case holds a character with the lower-case form `lower`.

* A class is asked about the lower-case form.
* A code point of the basic plane, or a range, holds all letters of which it holds one variant.
* A range that ends beyond the basic plane is asked about the beginning of the upper-case form too.
* A single code point beyond the basic plane is compared with the lower-case form as it is, so that
  an upper-case letter there finds nothing. -/
def containsVariant (item : CharItem) (lower : Nat) : Bool :=
  match item with
  | ofClass cls negated => cls.contains (Char.ofNat lower) != negated
  | single code =>
    if code ≤ lastBasicCode then (Text.caseVariants lower).contains code else code == lower
  | range first last =>
    let holds (n : Nat) : Bool := first ≤ n && n ≤ last
    (Text.caseVariants lower).any holds
      || (last > lastBasicCode && (Text.upperLead? lower).any holds)

end CharItem

/-- A set of characters. -/
structure CharSet where
  negated : Bool
  ignoreCase : Bool
  items : List CharItem
  deriving DecidableEq, Repr

namespace CharSet

/-- The set of one character. -/
def single (c : Char) : CharSet := ⟨false, false, [.single c.toNat]⟩

/-- The set of all characters but one. -/
def except (c : Char) : CharSet := ⟨true, false, [.single c.toNat]⟩

/-- Whether one of the items holds a letter that counts as the same as `c`. A code point that is the
only item holds its variants on all planes. -/
def holdsVariant (items : List CharItem) (c : Char) : Bool :=
  let lower := Text.lowerCode c.toNat
  match items with
  | [.single code] => (Text.caseVariants lower).contains code
  | items => items.any (·.containsVariant lower)

/-- Whether a set holds a character. -/
def contains (s : CharSet) (c : Char) : Bool :=
  s.negated != if s.ignoreCase then holdsVariant s.items c else s.items.any (·.contains c)

theorem toNat_beq (c d : Char) : (d.toNat == c.toNat) = (d == c) := by
  rw [Bool.eq_iff_iff, beq_iff_eq, beq_iff_eq]
  exact ⟨fun h => Char.ext (UInt32.toNat_inj.mp h), fun h => h ▸ rfl⟩

@[simp] theorem contains_single (c d : Char) : (single c).contains d = (d == c) := by
  simp [single, contains, CharItem.contains, toNat_beq]

@[simp] theorem contains_except (c d : Char) : (CharSet.except c).contains d = (d != c) := by
  simp [CharSet.except, contains, CharItem.contains, toNat_beq, bne]

end CharSet

end TreeSieve
