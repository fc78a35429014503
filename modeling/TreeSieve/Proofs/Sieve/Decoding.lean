import TreeSieve.Sieve.IgnoreFile

/-!
# Ignore texts as bytes

A text that is written as bytes and decoded again is the same text: on bytes that are well formed
the decoder never comes to a replacement.

* `Utf8.State.start_two`, `Utf8.State.start_three` and `Utf8.State.start_four` say what the first
  byte of a longer character leaves unfinished, and `Utf8.State.step_more` and
  `Utf8.State.step_last` what its other bytes do about it.
* `Utf8.foldl_encodeChar` reads the bytes of one character, and `Utf8.decode_encode` those of a
  text.
* `IgnoreFile.parse_encode` says that it makes no difference whether an ignore file is given as text
  or as the bytes of the text.
-/

namespace TreeSieve

namespace Utf8

/-! ### One byte -/

namespace State

variable (done : Text)

/-- If nothing is unfinished then the next byte is read as the first one of a character. -/
theorem step_first {b : Nat} (hb : b < 0x100) :
    step ⟨done, none⟩ (UInt8.ofNat b) = start ⟨done, none⟩ b := by
  rw [step, UInt8.toNat_ofNat_of_lt' hb]

/-- A byte in the range of the first of two leaves one byte to be read, which may be any that
continues a character. -/
theorem start_two {b : Nat} (hlow : 0xC2 ≤ b) (hhigh : b ≤ 0xDF) :
    start ⟨done, none⟩ b = ⟨done, some ⟨0, b - 0xC0, 0x80, 0xBF⟩⟩ := by
  have hlead : (decide (0xC2 ≤ b) && decide (b ≤ 0xDF)) = true := by simp [hlow, hhigh]
  rw [start, if_neg (by omega), if_pos hlead]

/-- The first of three bytes. The second one must not be as small as for a shorter form, and not as
large as for a surrogate. -/
theorem start_three {b : Nat} (hlow : 0xE0 ≤ b) (hhigh : b ≤ 0xEF) :
    start ⟨done, none⟩ b = ⟨done, some ⟨1, b - 0xE0, if b = 0xE0 then 0xA0 else 0x80,
      if b = 0xED then 0x9F else 0xBF⟩⟩ := by
  have htwo : ¬(decide (0xC2 ≤ b) && decide (b ≤ 0xDF)) = true := by
    rw [Bool.and_eq_true, decide_eq_true_eq, decide_eq_true_eq]
    omega
  rw [start, if_neg (by omega), if_neg htwo]
  by_cases hfirst : b = 0xE0
  · subst hfirst
    rfl
  · by_cases hsurrogate : b = 0xED
    · subst hsurrogate
      rfl
    · have hlead : (decide (0xE1 ≤ b) && decide (b ≤ 0xEF)) = true := by
        rw [Bool.and_eq_true, decide_eq_true_eq, decide_eq_true_eq]
        omega
      rw [if_neg hfirst, if_neg hsurrogate, if_pos hlead, if_neg hfirst, if_neg hsurrogate]

/-- The first of four bytes. The second one must not be as small as for a shorter form, and not as
large as for a value above the last code point. -/
theorem start_four {b : Nat} (hlow : 0xF0 ≤ b) (hhigh : b ≤ 0xF4) :
    start ⟨done, none⟩ b = ⟨done, some ⟨2, b - 0xF0, if b = 0xF0 then 0x90 else 0x80,
      if b = 0xF4 then 0x8F else 0xBF⟩⟩ := by
  have hcases : b = 0xF0 ∨ b = 0xF1 ∨ b = 0xF2 ∨ b = 0xF3 ∨ b = 0xF4 := by omega
  rcases hcases with rfl | rfl | rfl | rfl | rfl <;> rfl

section Tails

variable {value low high k : Nat} (hlow : low ≤ 0x80 + k) (hhigh : 0x80 + k ≤ high) (hk : k < 0x40)

include hlow hhigh hk

/-- A byte within its range continues what is unfinished by six bits. -/
theorem step_more (lacking : Nat) :
    step ⟨done, some ⟨lacking + 1, value, low, high⟩⟩ (UInt8.ofNat (0x80 + k))
      = ⟨done, some ⟨lacking, value * 0x40 + k, 0x80, 0xBF⟩⟩ := by
  have hrange : (decide (low ≤ 0x80 + k) && decide (0x80 + k ≤ high)) = true := by
    simp [hlow, hhigh]
  rw [step, UInt8.toNat_ofNat_of_lt' (show 0x80 + k < 0x100 by omega)]
  simp only [hrange, if_true, Nat.add_sub_cancel_left]

/-- If one byte is lacking then a byte within its range finishes the character. -/
theorem step_last :
    step ⟨done, some ⟨0, value, low, high⟩⟩ (UInt8.ofNat (0x80 + k))
      = ⟨Char.ofNat (value * 0x40 + k) :: done, none⟩ := by
  have hrange : (decide (low ≤ 0x80 + k) && decide (0x80 + k ≤ high)) = true := by
    simp [hlow, hhigh]
  rw [step, UInt8.toNat_ofNat_of_lt' (show 0x80 + k < 0x100 by omega)]
  simp only [hrange, if_true, Nat.add_sub_cancel_left, push]

end Tails

end State

/-! ### One character -/

/-- The code point of a character lies below or above the surrogates. -/
theorem toNat_cases (c : Char) :
    c.toNat < 0xD800 ∨ 0xDFFF < c.toNat ∧ c.toNat < 0x110000 := c.valid

/-- **The bytes of a character are read as that character.** -/
theorem foldl_encodeChar (done : Text) (c : Char) :
    (encodeChar c).foldl State.step ⟨done, none⟩ = ⟨c :: done, none⟩ := by
  have hvalid := toNat_cases c
  have hchar : ∀ {n : Nat}, n = c.toNat → Char.ofNat n = c := by
    rintro n rfl
    exact Char.ofNat_toNat c
  rw [encodeChar]
  generalize c.toNat = n at hvalid hchar
  by_cases hone : n < 0x80
  · rw [if_pos hone, List.foldl_cons, List.foldl_nil, State.step_first done (by omega),
      State.start, if_pos hone, State.push, hchar rfl]
  rw [if_neg hone]
  by_cases htwo : n < 0x800
  · rw [if_pos htwo, List.foldl_cons, List.foldl_cons, List.foldl_nil,
      State.step_first done (by omega), State.start_two done (by omega) (by omega),
      State.step_last done (by omega) (by omega) (by omega), hchar (by omega)]
  rw [if_neg htwo]
  by_cases hthree : n < 0x10000
  · rw [if_pos hthree, List.foldl_cons, List.foldl_cons, List.foldl_cons, List.foldl_nil,
      State.step_first done (by omega), State.start_three done (by omega) (by omega),
      State.step_more done (by split <;> omega) (by split <;> omega) (by omega) 0,
      State.step_last done (by omega) (by omega) (by omega), hchar (by omega)]
  · rw [if_neg hthree, List.foldl_cons, List.foldl_cons, List.foldl_cons, List.foldl_cons,
      List.foldl_nil, State.step_first done (by omega), State.start_four done (by omega) (by omega),
      State.step_more done (by split <;> omega) (by split <;> omega) (by omega) 1,
      State.step_more done (by omega) (by omega) (by omega) 0,
      State.step_last done (by omega) (by omega) (by omega), hchar (by omega)]

/-- The bytes of a character are those of the standard library. -/
theorem encodeChar_eq (c : Char) : encodeChar c = String.utf8EncodeChar c := by
  have hvalid := toNat_cases c
  rw [encodeChar, String.utf8EncodeChar]
  simp only [show c.val.toNat = c.toNat from rfl, Nat.div_one]
  generalize c.toNat = n at hvalid
  by_cases hone : n < 0x80
  · rw [if_pos hone, if_pos (show n ≤ 0x7F by omega)]
  rw [if_neg hone, if_neg (show ¬n ≤ 0x7F by omega)]
  by_cases htwo : n < 0x800
  · rw [if_pos htwo, if_pos (show n ≤ 0x7FF by omega), Nat.mod_eq_of_lt (b := 32) (by omega),
      Nat.add_comm 0xC0, Nat.add_comm 0x80]
  rw [if_neg htwo, if_neg (show ¬n ≤ 0x7FF by omega)]
  by_cases hthree : n < 0x10000
  · rw [if_pos hthree, if_pos (show n ≤ 0xFFFF by omega), Nat.mod_eq_of_lt (b := 16) (by omega),
      Nat.add_comm 0xE0, Nat.add_comm 0x80, Nat.add_comm 0x80]
  · rw [if_neg hthree, if_neg (show ¬n ≤ 0xFFFF by omega), Nat.mod_eq_of_lt (b := 8) (by omega),
      Nat.add_comm 0xF0, Nat.add_comm 0x80, Nat.add_comm 0x80, Nat.add_comm 0x80]

/-! ### Whole texts -/

theorem foldl_encode (done t : Text) :
    (encode t).foldl State.step ⟨done, none⟩ = ⟨t.reverse ++ done, none⟩ := by
  induction t generalizing done with
  | nil => rfl
  | cons c t ih =>
    rw [encode, List.flatMap_cons, List.foldl_append, foldl_encodeChar, ← encode, ih,
      List.reverse_cons, List.append_assoc]
    rfl

/-- **Decoding undoes encoding.** -/
theorem decode_encode (t : Text) : decode (encode t) = t := by
  rw [decode, foldl_encode, List.append_nil]
  exact List.reverse_reverse t

end Utf8

/-- The bytes of a text are decoded to what the text itself is decoded to. -/
theorem Content.decoded_encode (t : Text) :
    (Content.bytes (Utf8.encode t)).decoded = (Content.text t).decoded := by
  show (Utf8.decode (Utf8.encode t)).dropWhile (· == '\uFEFF') = t.dropWhile (· == '\uFEFF')
  rw [Utf8.decode_encode]

namespace IgnoreFile

variable (cache : MatcherCache) (scope : Text) (source : Option Text)

/-- What is decoded to the same text is parsed to the same. -/
theorem parse_congr {content content' : Content} (h : content.decoded = content'.decoded) :
    parse cache scope content source = parse cache scope content' source := by
  rw [parse, h, ← parse]

/-- **Text and bytes give the same ignore file.** The bytes of a text are those of the standard
library. What is decoded of them is what is decoded of the text itself, whatever it begins with; and
so everything that is read is the same: the rules, what there is to report, the counts, and what is
remembered of the patterns. -/
theorem parse_encode (t : Text) :
    Utf8.encode t = t.flatMap String.utf8EncodeChar ∧
      (Content.bytes (Utf8.encode t)).decoded = (Content.text t).decoded ∧
      parse cache scope (.bytes (Utf8.encode t)) source = parse cache scope (.text t) source := by
  refine ⟨?_, Content.decoded_encode t, parse_congr cache scope source (Content.decoded_encode t)⟩
  rw [Utf8.encode]
  exact congrArg (List.flatMap · t) (funext Utf8.encodeChar_eq)

end IgnoreFile

end TreeSieve
