/-
What the binary form keeps of a value.

A number keeps everything. A time is kept as a count of milliseconds: a
finer fraction is cut off, and a leap second counts on into the second
after it. `Moment.cut?` is the moment of that count. There is one
unless the moment is a leap second at the end of the last day: its
count belongs to the year after, which is out of range. `Value.cut?`
does the same to every time inside a value.
-/
import RelQuery.Proofs.Type.Distinct
import RelQuery.Value.Basic

namespace RelQuery

namespace Decimal

theorem littleEndian_succ (n count : Nat) :
    littleEndian n (count + 1) = UInt8.ofNat n :: littleEndian (n / 256) count := by
  simp [littleEndian, List.range_succ_eq_map, byteAt, Nat.div_div_eq_div_mul, Nat.pow_succ,
    Nat.mul_comm]

/-- A number is read back from its bytes, as far as they go. -/
theorem ofLittleEndian_littleEndian (n count : Nat) :
    ofLittleEndian (littleEndian n count) = n % Nat.pow 256 count := by
  induction count generalizing n with
  | zero => simp [littleEndian, ofLittleEndian, Nat.mod_one]
  | succ count ih =>
      have hbyte : (UInt8.ofNat n).toNat = n % 256 := UInt8.toNat_ofNat'
      have hpow : Nat.pow 256 (count + 1) = 256 * Nat.pow 256 count := Nat.pow_succ'
      rw [littleEndian_succ, ofLittleEndian, ih, hbyte, hpow, Nat.mod_mul]

/-- The form in sixteen bytes keeps sign, mantissa and scale. -/
theorem ofBytes_toBytes (d : Decimal) : ofBytes (d.toBytes.take 4) (d.toBytes.drop 4) = d := by
  obtain ⟨negative, m, scale, hm, hs⟩ := d
  have hsign : decide (128 ≤ (if negative then (128 : UInt8) else 0).toNat) = negative := by
    cases negative with
    | false => rfl
    | true => rfl
  have hmant : ofLittleEndian (littleEndian m 12) % 0x1000000000000000000000000 = m := by
    have hpow : Nat.pow 256 12 = 0x1000000000000000000000000 := rfl
    rw [ofLittleEndian_littleEndian, hpow]
    omega
  have hscale : (UInt8.ofNat scale).toNat % 32 = scale := by
    rw [UInt8.toNat_ofNat']
    omega
  show ofBytes [0, 0, UInt8.ofNat scale, if negative then 128 else 0] (littleEndian m 12) = _
  unfold ofBytes
  extract_lets s n k
  have hs' : s ≤ 28 := Nat.le_trans (Nat.le_of_eq hscale) hs
  rw [dif_pos hs', mk.injEq]
  exact ⟨hsign, hmant, hscale⟩

end Decimal

namespace Moment

/-- The dates in range, as counts of days. -/
theorem yearInRange_dateOfDays (days : Int) :
    yearInRange (dateOfDays days).1 = true ↔ -96465292 ≤ days ∧ days ≤ 95026236 := by
  have hrange : ∀ y, yearInRange y = true ↔ -262143 ≤ y ∧ y ≤ 262142 := by simp [yearInRange]
  rw [hrange]
  unfold dateOfDays
  extract_lets z era dayOfEra yearOfEra dayOfYear monthFromMarch day month year
  have hera : era = (days + 719468) / 146097 := Int.fdiv_eq_ediv_of_nonneg _ (by decide)
  have hday : dayOfEra = (days + 719468) % 146097 := Int.fmod_eq_emod_of_nonneg _ (by decide)
  have hyear : yearOfEra =
      (dayOfEra - dayOfEra / 1460 + dayOfEra / 36524 - dayOfEra / 146096) / 365 := by
    simp only [yearOfEra, Int.fdiv_eq_ediv_of_nonneg dayOfEra (show (0 : Int) ≤ 1460 by decide),
      Int.fdiv_eq_ediv_of_nonneg dayOfEra (show (0 : Int) ≤ 36524 by decide),
      Int.fdiv_eq_ediv_of_nonneg dayOfEra (show (0 : Int) ≤ 146096 by decide),
      Int.fdiv_eq_ediv_of_nonneg _ (show (0 : Int) ≤ 365 by decide)]
  have hofYear : dayOfYear = dayOfEra - (365 * yearOfEra + yearOfEra / 4 - yearOfEra / 100) := by
    simp only [dayOfYear, Int.fdiv_eq_ediv_of_nonneg _ (show (0 : Int) ≤ 4 by decide),
      Int.fdiv_eq_ediv_of_nonneg _ (show (0 : Int) ≤ 100 by decide)]
  have hmarch : monthFromMarch = (5 * dayOfYear + 2) / 153 :=
    Int.fdiv_eq_ediv_of_nonneg _ (by decide)
  have hmonth : month = if monthFromMarch < 10 then monthFromMarch + 3 else monthFromMarch - 9 :=
    rfl
  have hsum : year = yearOfEra + era * 400 := rfl
  dsimp only
  clear_value year month day monthFromMarch dayOfYear yearOfEra dayOfEra era z
  -- only the eras of the first and of the last year need a look at the year within
  have heras : era < -656 ∨ era = -656 ∨ (-656 < era ∧ era < 655) ∨ era = 655 ∨ 655 < era := by
    omega
  rcases heras with h | h | h | h | h
  · split <;> omega
  · have hyears : yearOfEra < 256 ∨ yearOfEra = 256 ∨ 256 < yearOfEra := by omega
    rcases hyears with h' | h' | h'
    · split <;> omega
    · subst h'
      split <;> omega
    · split <;> omega
  · split <;> omega
  · have hyears : yearOfEra < 142 ∨ yearOfEra = 142 ∨ 142 < yearOfEra := by omega
    rcases hyears with h' | h' | h'
    · split <;> omega
    · subst h'
      split <;> omega
    · split <;> omega
  · split <;> omega

/-- A date in range is counted as a day between the first and the last
one there are. -/
theorem daysOfDate_bounds {year : Int} {month day : Nat} (hyear : yearInRange year = true)
    (hmonth : 1 ≤ month ∧ month ≤ 12) (hday : 1 ≤ day ∧ day ≤ 31) :
    -96465292 ≤ daysOfDate year month day ∧ daysOfDate year month day ≤ 95026236 := by
  have hrange : -262143 ≤ year ∧ year ≤ 262142 := by simpa [yearInRange] using hyear
  unfold daysOfDate
  extract_lets y era yearOfEra monthFromMarch dayOfYear dayOfEra
  have hera : era = y / 400 := Int.fdiv_eq_ediv_of_nonneg _ (by decide)
  have hyearOfEra : yearOfEra = y % 400 := Int.fmod_eq_emod_of_nonneg _ (by decide)
  have hmarch : monthFromMarch = ((month + 9) % 12 : Nat) := rfl
  -- January and February belong to the year before, and end it
  have hlate : month ≤ 2 → 10 ≤ monthFromMarch ∧ monthFromMarch ≤ 11 := by omega
  have hearly : ¬month ≤ 2 → 0 ≤ monthFromMarch ∧ monthFromMarch ≤ 9 := by omega
  have hdayOfYear : dayOfYear = (153 * monthFromMarch + 2) / 5 + day - 1 := by
    simp only [dayOfYear, Int.fdiv_eq_ediv_of_nonneg _ (show (0 : Int) ≤ 5 by decide)]
  have hdayOfEra : dayOfEra = yearOfEra * 365 + yearOfEra / 4 - yearOfEra / 100 + dayOfYear := by
    simp only [dayOfEra, Int.fdiv_eq_ediv_of_nonneg _ (show (0 : Int) ≤ 4 by decide),
      Int.fdiv_eq_ediv_of_nonneg _ (show (0 : Int) ≤ 100 by decide)]
  have hy : y = if month ≤ 2 then year - 1 else year := rfl
  clear hmarch
  clear_value dayOfEra dayOfYear monthFromMarch yearOfEra era y
  -- as above, the years within matter in the first and in the last era only
  have heras : era = -656 ∨ (-656 < era ∧ era < 655) ∨ era = 655 := by
    split at hy <;> omega
  rcases heras with h | h | h
  · have hyears : yearOfEra = 256 ∨ 256 < yearOfEra := by
      split at hy <;> omega
    rcases hyears with h' | h'
    · subst h'
      split at hy <;> omega
    · omega
  · omega
  · have hyears : yearOfEra < 142 ∨ yearOfEra = 142 := by
      split at hy <;> omega
    rcases hyears with h' | h'
    · omega
    · subst h'
      split at hy <;> omega

/-- The year is in range, and at most a leap second stands on top. -/
def isValid (m : Moment) : Bool :=
  yearInRange (dateOfDays (m.second.fdiv 86400)).1 && decide (m.nano < 2000000000)

/-- A whole number of milliseconds outside a leap second. -/
def isWhole (m : Moment) : Bool :=
  decide (m.nano < 1000000000) && m.nano % 1000000 == 0

/-- In the leap second at the end of the last day. -/
def isLastLeap (m : Moment) : Bool :=
  m.second == 8210266876799 && decide (1000000000 ≤ m.nano)

/-- The moment of the count of milliseconds, if its year is in range. -/
def cut? (m : Moment) : Option Moment :=
  ofMillis? m.toMillis

/-- A moment is valid if its second lies in range and its fraction is less
than two seconds. -/
theorem isValid_iff {m : Moment} : m.isValid = true
    ↔ (-8334601228800 ≤ m.second ∧ m.second < 8210266876800) ∧ m.nano < 2000000000 := by
  rw [isValid, Bool.and_eq_true, decide_eq_true_eq, yearInRange_dateOfDays,
    Int.fdiv_eq_ediv_of_nonneg _ (by decide)]
  omega

/-- No month has more days than that. -/
theorem daysInMonth_le (year : Int) (month : Nat) : daysInMonth year month ≤ 31 := by
  unfold daysInMonth
  split
  · split <;> decide
  · decide
  · decide
  · decide
  · decide
  · decide

/-- A moment of fields is valid: its date is one of the calendar, and at
most a leap second stands on top. -/
theorem isValid_of_ofFields? {year : Int} {month day hour minute second nano : Nat} {m : Moment}
    (hnano : nano < 1000000000)
    (h : ofFields? year month day hour minute second nano = some m) : m.isValid = true := by
  unfold ofFields? at h
  split at h
  · rename_i hfields
    simp only [Bool.and_eq_true, decide_eq_true_eq] at hfields
    obtain ⟨⟨⟨⟨⟨⟨⟨hyear, hfirst⟩, hlast⟩, hday⟩, hdays⟩, hhour⟩, hminute⟩, hsecond⟩ := hfields
    have hlatest : day ≤ 31 := Nat.le_trans hdays (daysInMonth_le year month)
    have hdate := daysOfDate_bounds hyear ⟨hfirst, hlast⟩ ⟨hday, hlatest⟩
    cases h
    rw [isValid_iff]
    dsimp only
    split
    · omega
    · rename_i hleap
      have hwhole : second ≠ 60 := by simpa using hleap
      omega
  · cases h

/-- Reading sets one field after another; only a fraction sets the
nanoseconds. -/
theorem nano_of_readItems {items : List Item} (hitems : .fraction ∉ items)
    {fields read : Fields} {text : List Char} (h : readItems fields items text = some read) :
    read.nano = fields.nano := by
  -- the induction is on the items, each of which sets at most its own field
  induction items generalizing fields text with
  | nil =>
      cases text with
      | nil =>
          cases h
          rfl
      | cons c rest => cases h
  | cons item items ih =>
      obtain ⟨hitem, hrest⟩ := List.ne_and_not_mem_of_not_mem_cons hitems
      cases item with
      | year | month | day | hour | minute | second =>
          obtain ⟨⟨n, rest⟩, -, h⟩ := Option.bind_eq_some_iff.mp h
          have hnano := ih hrest h
          exact hnano
      | fraction => exact absurd rfl hitem
      | blank => exact ih hrest h
      | mark c =>
          cases text with
          | nil => cases h
          | cons d rest =>
              unfold readItems at h
              dsimp only at h
              split at h
              · exact ih hrest h
              · cases h

/-- A moment that a text reads as is valid. -/
theorem isValid_of_read? {text : List Char} {m : Moment} (h : read? text = some m) :
    m.isValid = true := by
  have hread (items : List Item) (hitems : .fraction ∉ items)
      (h : (readItems {} items text).bind Fields.moment? = some m) : m.isValid = true := by
    obtain ⟨fields, hfields, hmoment⟩ := Option.bind_eq_some_iff.mp h
    refine isValid_of_ofFields? ?_ hmoment
    rw [nano_of_readItems hitems hfields]
    decide
  unfold read? at h
  split at h
  · cases h
    exact hread dateTimeItems (by simp [dateTimeItems, dateItems]) ‹_›
  · exact hread dateItems (by simp [dateItems]) h

/-- The count of milliseconds fits in 64 bits with a sign. -/
theorem toMillis_bounds {m : Moment} (h : m.isValid = true) :
    -0x8000000000000000 ≤ m.toMillis ∧ m.toMillis < 0x8000000000000000 := by
  rw [isValid_iff] at h
  rw [toMillis]
  omega

/-- Only a leap second at the end of the last day has no moment of its
count. -/
theorem isSome_cut? {m : Moment} (h : m.isValid = true) :
    m.cut?.isSome = true ↔ m.isLastLeap = false := by
  rw [isValid_iff] at h
  have hrange : yearInRange (dateOfDays ((m.toMillis.fdiv 1000).fdiv 86400)).1 = true
      ↔ m.isLastLeap = false := by
    rw [yearInRange_dateOfDays, Int.fdiv_eq_ediv_of_nonneg _ (by decide),
      Int.fdiv_eq_ediv_of_nonneg _ (by decide), toMillis, isLastLeap, Bool.and_eq_false_iff,
      beq_eq_false_iff_ne, decide_eq_false_iff_not]
    omega
  rw [← hrange, cut?, ofMillis?]
  split
  · rename_i hin
    simp [hin]
  · rename_i hout
    simp [hout]

/-- A moment of whole milliseconds is cut to itself. -/
theorem cut?_of_isWhole {m : Moment} (h : m.isValid = true) (hw : m.isWhole = true) :
    m.cut? = some m := by
  rw [isValid, Bool.and_eq_true] at h
  rw [isWhole, Bool.and_eq_true, decide_eq_true_eq, beq_iff_eq] at hw
  have hsecond : m.toMillis.fdiv 1000 = m.second := by
    rw [toMillis, Int.fdiv_eq_ediv_of_nonneg _ (by decide)]
    omega
  have hnano : (m.toMillis.fmod 1000).toNat * 1000000 = m.nano := by
    rw [toMillis, Int.fmod_eq_emod_of_nonneg _ (by decide)]
    omega
  rw [cut?, ofMillis?, hsecond, hnano]
  exact if_pos h.1

end Moment

/-- One cut form after another. -/
theorem isSome_bind_map {α β γ : Type} {a : Option α} {b : Option β} {f : α → β → γ} :
    (a.bind fun x => b.map (f x)).isSome = true ↔ a.isSome = true ∧ b.isSome = true := by
  cases a with
  | none => simp
  | some x => simp

namespace Value

mutual

/-- The value with every time cut to milliseconds; none where one of
them then has a year out of range. -/
def cut? : Value → Option Value
  | .time m => m.cut?.map .time
  | .tuple fields => (cutFields? fields).map .tuple
  | .relation h rows => (cutRows? rows).map (.relation h)
  | v => some v

/-- The fields of a tuple, each cut. -/
def cutFields? : List (String × Value) → Option (List (String × Value))
  | [] => some []
  | (name, v) :: rest => v.cut?.bind fun v => (cutFields? rest).map fun rest => (name, v) :: rest

/-- The rows of a relation, each cut. -/
def cutRows? : List (List Value) → Option (List (List Value))
  | [] => some []
  | row :: rest => (cutCells? row).bind fun row => (cutRows? rest).map fun rest => row :: rest

/-- The cells of a row, each cut. -/
def cutCells? : List Value → Option (List Value)
  | [] => some []
  | v :: rest => v.cut?.bind fun v => (cutCells? rest).map fun rest => v :: rest

end

mutual

/-- Rows have one cell per column, headings distinct names, and times
a year in range. -/
def isWellFormed : Value → Bool
  | .time m => m.isValid
  | .tuple fields => fieldsWellFormed fields
  | .relation h rows => h.namesDistinct && rowsWellFormed h.length rows
  | .heading h => h.namesDistinct
  | _ => true

def fieldsWellFormed : List (String × Value) → Bool
  | [] => true
  | (_, v) :: rest => v.isWellFormed && fieldsWellFormed rest

def rowsWellFormed (width : Nat) : List (List Value) → Bool
  | [] => true
  | row :: rest => row.length == width && cellsWellFormed row && rowsWellFormed width rest

def cellsWellFormed : List Value → Bool
  | [] => true
  | v :: rest => v.isWellFormed && cellsWellFormed rest

end

mutual

/-- The times inside a value. -/
def times : Value → List Moment
  | .time m => [m]
  | .tuple fields => fieldTimes fields
  | .relation _ rows => rowTimes rows
  | _ => []

def fieldTimes : List (String × Value) → List Moment
  | [] => []
  | (_, v) :: rest => v.times ++ fieldTimes rest

def rowTimes : List (List Value) → List Moment
  | [] => []
  | row :: rest => cellTimes row ++ rowTimes rest

def cellTimes : List Value → List Moment
  | [] => []
  | v :: rest => v.times ++ cellTimes rest

end

mutual

/-- A value has a cut form unless it holds the leap second at the end
of the last day. -/
theorem isSome_cut? : ∀ (v : Value), v.isWellFormed = true →
    (v.cut?.isSome = true ↔ ∀ m ∈ v.times, m.isLastLeap = false)
  | .void, _ | .bool _, _ | .number _, _ | .text _, _ | .binary _, _ | .heading _, _ => by
      simp [cut?, times]
  | .time m, hv => by
      rw [cut?, times, Option.isSome_map, List.forall_mem_singleton]
      exact Moment.isSome_cut? hv
  | .tuple fields, hv => by
      rw [cut?, times, Option.isSome_map]
      exact isSome_cutFields? fields hv
  | .relation h rows, hv => by
      rw [isWellFormed, Bool.and_eq_true] at hv
      rw [cut?, times, Option.isSome_map]
      exact isSome_cutRows? rows hv.2

/-- Fields can be cut if none of their moments is the last leap second. -/
theorem isSome_cutFields? : ∀ (fields : List (String × Value)), fieldsWellFormed fields = true →
    ((cutFields? fields).isSome = true ↔ ∀ m ∈ fieldTimes fields, m.isLastLeap = false)
  | [], _ => by simp [cutFields?, fieldTimes]
  | (_, v) :: rest, hv => by
      rw [fieldsWellFormed, Bool.and_eq_true] at hv
      rw [cutFields?, fieldTimes, List.forall_mem_append, ← isSome_cut? v hv.1,
        ← isSome_cutFields? rest hv.2]
      exact isSome_bind_map

/-- Rows can be cut if none of their moments is the last leap second. -/
theorem isSome_cutRows? {width : Nat} : ∀ (rows : List (List Value)),
    rowsWellFormed width rows = true →
    ((cutRows? rows).isSome = true ↔ ∀ m ∈ rowTimes rows, m.isLastLeap = false)
  | [], _ => by simp [cutRows?, rowTimes]
  | row :: rest, hv => by
      rw [rowsWellFormed, Bool.and_eq_true, Bool.and_eq_true] at hv
      rw [cutRows?, rowTimes, List.forall_mem_append, ← isSome_cutCells? row hv.1.2,
        ← isSome_cutRows? rest hv.2]
      exact isSome_bind_map

/-- Cells can be cut if none of their moments is the last leap second. -/
theorem isSome_cutCells? : ∀ (cells : List Value), cellsWellFormed cells = true →
    ((cutCells? cells).isSome = true ↔ ∀ m ∈ cellTimes cells, m.isLastLeap = false)
  | [], _ => by simp [cutCells?, cellTimes]
  | v :: rest, hv => by
      rw [cellsWellFormed, Bool.and_eq_true] at hv
      rw [cutCells?, cellTimes, List.forall_mem_append, ← isSome_cut? v hv.1,
        ← isSome_cutCells? rest hv.2]
      exact isSome_bind_map

end

mutual

/-- Where every time is whole nothing is cut. -/
theorem cut?_of_isWhole : ∀ (v : Value), v.isWellFormed = true →
    (∀ m ∈ v.times, m.isWhole = true) → v.cut? = some v
  | .void, _, _ | .bool _, _, _ | .number _, _, _ | .text _, _, _ | .binary _, _, _
  | .heading _, _, _ => rfl
  | .time m, hv, hw => by
      rw [cut?, Moment.cut?_of_isWhole hv (hw m List.mem_cons_self)]
      rfl
  | .tuple fields, hv, hw => by
      rw [cut?, cutFields?_of_isWhole fields hv hw]
      rfl
  | .relation h rows, hv, hw => by
      rw [isWellFormed, Bool.and_eq_true] at hv
      rw [cut?, cutRows?_of_isWhole rows hv.2 hw]
      rfl

/-- Fields of whole milliseconds are cut to themselves. -/
theorem cutFields?_of_isWhole : ∀ (fields : List (String × Value)),
    fieldsWellFormed fields = true → (∀ m ∈ fieldTimes fields, m.isWhole = true) →
      cutFields? fields = some fields
  | [], _, _ => rfl
  | (_, v) :: rest, hv, hw => by
      rw [fieldsWellFormed, Bool.and_eq_true] at hv
      rw [fieldTimes, List.forall_mem_append] at hw
      rw [cutFields?, cut?_of_isWhole v hv.1 hw.1, cutFields?_of_isWhole rest hv.2 hw.2]
      rfl

/-- Rows of whole milliseconds are cut to themselves. -/
theorem cutRows?_of_isWhole {width : Nat} : ∀ (rows : List (List Value)),
    rowsWellFormed width rows = true → (∀ m ∈ rowTimes rows, m.isWhole = true) →
      cutRows? rows = some rows
  | [], _, _ => rfl
  | row :: rest, hv, hw => by
      rw [rowsWellFormed, Bool.and_eq_true, Bool.and_eq_true] at hv
      rw [rowTimes, List.forall_mem_append] at hw
      rw [cutRows?, cutCells?_of_isWhole row hv.1.2 hw.1, cutRows?_of_isWhole rest hv.2 hw.2]
      rfl

/-- Cells of whole milliseconds are cut to themselves. -/
theorem cutCells?_of_isWhole : ∀ (cells : List Value),
    cellsWellFormed cells = true → (∀ m ∈ cellTimes cells, m.isWhole = true) →
      cutCells? cells = some cells
  | [], _, _ => rfl
  | v :: rest, hv, hw => by
      rw [cellsWellFormed, Bool.and_eq_true] at hv
      rw [cellTimes, List.forall_mem_append] at hw
      rw [cutCells?, cut?_of_isWhole v hv.1 hw.1, cutCells?_of_isWhole rest hv.2 hw.2]
      rfl

end

end Value

end RelQuery
