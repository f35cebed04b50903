/-
The written form of a decimal is read back as the same decimal.

Digits are read from the left, and nothing is rounded on the way: the
mantissa of a decimal is in range, so is that of every shorter row of
its digits, and the last digit after the point that there may be is
also the last one written.
-/
import RelQuery.Number.Decimal

namespace RelQuery

namespace Decimal

open Nat (ofDigitChars)

-- ========================================================== rows of digits

/-- Zeros in front make no difference to a number. -/
theorem ofDigitChars_replicate (k : Nat) (l : List Char) :
    ofDigitChars 10 (List.replicate k '0' ++ l) 0 = ofDigitChars 10 l 0 := by
  induction k with
  | zero => rfl
  | succ k ih => exact ih

/-- More digits make no number smaller. -/
theorem le_ofDigitChars (l : List Char) (m : Nat) : m ≤ ofDigitChars 10 l m := by
  induction l generalizing m with
  | nil => exact Nat.le_refl _
  | cons c l ih =>
      have hle := ih (10 * m + (c.toNat - '0'.toNat))
      rw [Nat.ofDigitChars_cons]
      omega

/-- A written mantissa: digits before and after the point. -/
theorem digits_eq (m s : Nat) : ∃ w f, digits m s = w ++ (if s = 0 then [] else '.' :: f) ∧
    w ≠ [] ∧ f.length = s ∧ (∀ c ∈ w ++ f, c.isDigit = true) ∧ ofDigitChars 10 (w ++ f) 0 = m := by
  -- enough zeros in front that a digit is left before the point
  let all := List.replicate (s + 1 - (Nat.toDigits 10 m).length) '0' ++ Nat.toDigits 10 m
  have hlength : s + 1 ≤ all.length := by
    simp only [all, List.length_append, List.length_replicate]
    omega
  have hvalue : ofDigitChars 10 all 0 = m := by
    rw [ofDigitChars_replicate, Nat.ofDigitChars_toDigits (by decide) (by decide)]
  have hdigit : ∀ c ∈ all, c.isDigit = true := by
    intro c hc
    rcases List.mem_append.mp hc with hc | hc
    · rw [(List.mem_replicate.mp hc).2]
      rfl
    · exact Nat.isDigit_of_mem_toDigits (by decide) (by decide) hc
  -- the point stands before the last digits, as many as the scale says
  refine ⟨all.take (all.length - s), all.drop (all.length - s), ?_, ?_, ?_, ?_, ?_⟩
  · show (if s = 0 then all else _) = _
    split
    · rename_i hs
      simp [hs]
    · rfl
  · intro hnil
    have htake := congrArg List.length hnil
    simp only [List.length_take, List.length_nil] at htake
    omega
  · rw [List.length_drop]
    omega
  · rw [List.take_append_drop]
    exact hdigit
  · rw [List.take_append_drop]
    exact hvalue

-- ============================================================== reading

/-- What reading one more digit makes of a mantissa. -/
theorem next_eq (m : Nat) (c : Char) :
    m * 10 + (c.toNat - 48) = 10 * m + (c.toNat - '0'.toNat) := by
  rw [Nat.mul_comm]
  rfl

/-- Digits before the point. -/
theorem readDigits_whole {l : List Char} (hdigit : ∀ c ∈ l, c.isDigit = true) {m : Nat}
    (hm : ofDigitChars 10 l m < 0x1000000000000000000000000) (seen : Bool) (rest : List Char) :
    readDigits false seen m 0 (l ++ rest)
      = readDigits false (seen || !l.isEmpty) (ofDigitChars 10 l m) 0 rest := by
  induction l generalizing m seen with
  | nil => simp [ofDigitChars]
  | cons c l ih =>
      have hc : c.isDigit = true := hdigit c List.mem_cons_self
      rw [Nat.ofDigitChars_cons] at hm ⊢
      have hnext := Nat.lt_of_le_of_lt (le_ofDigitChars l _) hm
      rw [List.cons_append, readDigits, if_pos hc]
      dsimp only
      rw [next_eq, if_pos hnext, Bool.not_false, if_pos rfl,
        ih (fun d hd => hdigit d (List.mem_cons_of_mem c hd)) hm]
      simp

/-- Digits after the point. -/
theorem readDigits_fraction {l : List Char} (hdigit : ∀ c ∈ l, c.isDigit = true) {m s : Nat}
    (hm : ofDigitChars 10 l m < 0x1000000000000000000000000) (hs : s + l.length ≤ 28) :
    readDigits true true m s l = some (ofDigitChars 10 l m, s + l.length) := by
  induction l generalizing m s with
  | nil => rfl
  | cons c l ih =>
      have hc : c.isDigit = true := hdigit c List.mem_cons_self
      rw [Nat.ofDigitChars_cons] at hm ⊢
      have hnext := Nat.lt_of_le_of_lt (le_ofDigitChars l _) hm
      rw [List.length_cons] at hs
      rw [readDigits, if_pos hc]
      dsimp only
      rw [next_eq, if_pos hnext, Bool.not_true, if_neg (by decide)]
      by_cases hlast : s + 1 < 28
      · rw [if_pos hlast, ih (fun d hd => hdigit d (List.mem_cons_of_mem c hd)) hm (by omega),
          List.length_cons]
        congr 2
        omega
      · -- the last digit there may be is the last one written
        obtain rfl : l = [] := List.eq_nil_of_length_eq_zero (by omega)
        rw [if_neg hlast]
        split
        · rfl
        · rfl

/-- Writing and reading back. -/
theorem readDigits_digits {m s : Nat} (hm : m < 0x1000000000000000000000000) (hs : s ≤ 28) :
    readDigits false false 0 0 (digits m s) = some (m, s) := by
  obtain ⟨w, f, heq, hw, hf, hdigit, hvalue⟩ := digits_eq m s
  have hsplit : ofDigitChars 10 f (ofDigitChars 10 w 0) = m := by
    rw [← hvalue, Nat.ofDigitChars_append]
  have hwhole := Nat.lt_of_le_of_lt (hsplit ▸ le_ofDigitChars f (ofDigitChars 10 w 0)) hm
  have hseen : (false || !w.isEmpty) = true := by simpa using hw
  rw [heq, readDigits_whole (fun c hc => hdigit c (List.mem_append_left f hc)) hwhole, hseen]
  split
  · rename_i hzero
    rw [hzero, List.length_eq_zero_iff] at hf
    rw [hf] at hsplit
    rw [readDigits, if_pos rfl, hzero]
    exact congrArg some (congrArg (·, 0) hsplit)
  · have hpoint (l : List Char) (n : Nat) :
        readDigits false true n 0 ('.' :: l) = readDigits true true n 0 l := rfl
    rw [hpoint, readDigits_fraction (fun c hc => hdigit c (List.mem_append_right w hc))
      (by rw [hsplit]; exact hm) (by omega), hsplit, hf, Nat.zero_add]

/-- The written form of a decimal without a sign begins with a digit. -/
theorem write_eq {d : Decimal} (hd : d.negative = false) :
    ∃ w f, d.write.toList = w ++ (if d.scale = 0 then [] else '.' :: f) ∧ w ≠ [] ∧
      f.length = d.scale ∧ ∀ c ∈ w ++ f, c.isDigit = true := by
  obtain ⟨w, f, heq, hw, hf, hdigit, -⟩ := digits_eq d.mantissa d.scale
  refine ⟨w, f, ?_, hw, hf, hdigit⟩
  rw [write, String.toList_ofList, hd, if_neg (by decide), List.nil_append, heq]

/-- A number without a sign begins with a digit. -/
theorem write_cons {d : Decimal} (hd : d.negative = false) :
    ∃ c w, d.write.toList = c :: w ∧ c.isDigit = true := by
  obtain ⟨w, f, heq, hw, -, hdigit⟩ := write_eq hd
  obtain ⟨c, w, rfl⟩ := List.exists_cons_of_ne_nil hw
  exact ⟨c, _, heq, hdigit c (by simp)⟩

/-- A number that is not negative is read as it was written. -/
theorem read?_write {d : Decimal} (hd : d.negative = false) : read? d.write.toList = some d := by
  obtain ⟨w, f, heq, hw, -, hdigit⟩ := write_eq hd
  obtain ⟨c, w, rfl⟩ := List.exists_cons_of_ne_nil hw
  have hc : c.isDigit = true := hdigit c (by simp)
  -- the text begins with a digit, so with no sign
  have hsign (sign : Char) (hs : sign.isDigit = false) (rest : List Char) :
      d.write.toList ≠ sign :: rest := by
    intro hrest
    rw [heq, List.cons_append, List.cons.injEq] at hrest
    rw [hrest.1, hs] at hc
    cases hc
  unfold read?
  split
  · rename_i rest hrest
    exact absurd hrest (hsign '-' rfl rest)
  · rename_i rest hrest
    exact absurd hrest (hsign '+' rfl rest)
  · rw [write, String.toList_ofList, hd, if_neg (by decide), List.nil_append,
      readDigits_digits d.mantissa_lt d.scale_le]
    show ofParts? false d.mantissa d.scale = some d
    rw [ofParts?, dif_pos ⟨d.mantissa_lt, d.scale_le⟩]
    obtain ⟨negative, mantissa, scale, hm, hs⟩ := d
    cases hd
    rfl

end Decimal

end RelQuery
