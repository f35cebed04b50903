/-
Byte offsets that lie between the characters of a text.

Offsets count bytes and lists are cut between characters. `StandsAt`
ties the two: an offset at which some characters stand is the length of
what stands before them. The empty stretch stands at the character
boundaries, and nowhere else.
-/
import RelQuery.Proofs.Text.Comment
import RelQuery.Text.Location

namespace RelQuery

namespace Text

/-- At a byte offset, which is a character boundary, the text goes on
with `front`. -/
def StandsAt (text : List Char) (offset : Nat) (front : List Char) : Prop :=
  ∃ before after, text = before ++ front ++ after ∧ byteLength before = offset

/-- The byte offset is a character boundary of the text, or its end. -/
abbrev IsBoundary (text : List Char) (offset : Nat) : Prop := StandsAt text offset []

/-- No text but the empty one has no bytes. -/
theorem byteLength_eq_zero {text : List Char} : byteLength text = 0 ↔ text = [] := by
  constructor
  · intro h
    exact List.length_eq_zero_iff.mp (Nat.le_zero.mp (h ▸ length_le_byteLength text))
  · rintro rfl
    rfl

namespace StandsAt

variable {text front : List Char} {offset : Nat}

theorem isBoundary (h : StandsAt text offset front) : IsBoundary text offset := by
  obtain ⟨before, after, rfl, hoffset⟩ := h
  exact ⟨before, front ++ after, by rw [List.append_nil, List.append_assoc], hoffset⟩

/-- What stands at an offset ends inside the text. -/
theorem le_byteLength (h : StandsAt text offset front) :
    offset + byteLength front ≤ byteLength text := by
  obtain ⟨before, after, rfl, rfl⟩ := h
  rw [byteLength_append, byteLength_append]
  exact Nat.le_add_right _ _

/-- Where a character stands there is text left. -/
theorem lt_byteLength (h : StandsAt text offset front) (hfront : front ≠ []) :
    offset < byteLength text := by
  have hle := h.le_byteLength
  have hpos := Nat.pos_of_ne_zero (byteLength_eq_zero.not.mpr hfront)
  omega

end StandsAt

/-- Of two boundaries the later one has more text before it. -/
theorem exists_between {text : List Char} {a b : Nat} (ha : IsBoundary text a)
    (hb : IsBoundary text b) (hlt : a < b) :
    ∃ before middle after, text = before ++ middle ++ after ∧ middle ≠ [] ∧
      byteLength before = a ∧ byteLength (before ++ middle) = b := by
  obtain ⟨before, rest, rfl, rfl⟩ := ha
  obtain ⟨before', rest', heq, rfl⟩ := hb
  rw [List.append_nil, List.append_nil] at heq
  obtain ⟨middle, rfl, rfl⟩ | ⟨middle, rfl, rfl⟩ := List.append_eq_append_iff.mp heq
  · refine ⟨before, middle, rest', by simp only [List.append_nil, List.append_assoc], ?_, rfl, rfl⟩
    rintro rfl
    rw [List.append_nil] at hlt
    exact Nat.lt_irrefl _ hlt
  · rw [byteLength_append] at hlt
    omega

/-- As many bytes as the first text has are the first text. -/
theorem takeBytes_append (before rest : List Char) :
    takeBytes (byteLength before) (before ++ rest) = before := by
  induction before with
  | nil =>
      cases rest with
      | nil => rfl
      | cons c rest => exact if_neg (Nat.not_le.mpr c.utf8Size_pos)
  | cons c before ih =>
      rw [byteLength_cons, List.cons_append, takeBytes, if_pos (Nat.le_add_right _ _),
        Nat.add_sub_cancel_left, ih]

end Text

end RelQuery
