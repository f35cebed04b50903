/-
Written types, and why one has no meaning.

A written type names scalar and user types and may hold headings at any
depth. It has no meaning if a name is unknown, and then the fault has
the mark of the name; or if a heading names a column twice, and then the
fault has no mark, since headings have none. The first of these that is
met is the fault (`Understood`).
-/
import RelQuery.Build.Walk
import RelQuery.Proofs.Grammar.Marks
import RelQuery.Proofs.Type.Distinct

namespace RelQuery

-- ================================================== repeated names

mutual

/-- A heading in the written type names a column twice. -/
def TypeExpr.repeats : TypeExpr → Bool
  | .named .. => false
  | .tuple columns => !decide (columns.map Prod.fst).Nodup || repeatsInside columns
  | .relation columns => !decide (columns.map Prod.fst).Nodup || repeatsInside columns

/-- A heading in the types of written columns names a column twice. -/
def repeatsInside : List (String × TypeExpr) → Bool
  | [] => false
  | (_, type) :: rest => type.repeats || repeatsInside rest

end

/-- Written columns, or a heading in their types, name a column twice. -/
def columnsRepeat (columns : List (String × TypeExpr)) : Bool :=
  !decide (columns.map Prod.fst).Nodup || repeatsInside columns

/-- The header of a definition names a column twice: parameters and
declared result, or components. -/
def Sentence.headerRepeats : Sentence → Bool
  | .define _ _ params returns _ => columnsRepeat params || returns.any TypeExpr.repeats
  | .typeDef _ _ _ components => columnsRepeat components
  | .assign .. | .expression _ => false

/-- Columns can be added exactly if no name is taken twice. -/
theorem Heading.pushAll_cases {h : Heading} (hh : h.names.Nodup) (columns : List Column) :
    (∃ k, h.pushAll columns = .ok k ∧ (h.names ++ Heading.names columns).Nodup) ∨
    (∃ c, h.pushAll columns = .error (.duplicateColumn c) ∧
      ¬ (h.names ++ Heading.names columns).Nodup) := by
  induction columns generalizing h with
  | nil => exact .inl ⟨h, rfl, by simpa [Heading.names] using hh⟩
  | cons c rest ih =>
      cases hpush : h.push c with
      | error e =>
          have htaken : c.name ∈ h.names ∧ e = .duplicateColumn c.name := by
            unfold push at hpush
            split at hpush
            · cases hpush
              exact ⟨has_eq_true.mp ‹_›, rfl⟩
            · cases hpush
          refine .inr ⟨c.name, ?_, fun hnodup => ?_⟩
          · rw [pushAll, hpush, htaken.2]
            rfl
          · exact (List.nodup_append.mp hnodup).2.2 _ htaken.1 _ List.mem_cons_self rfl
      | ok k =>
          have hk := nodup_names_push hpush hh
          have hall : k.names ++ Heading.names rest = h.names ++ Heading.names (c :: rest) := by
            rw [(push_eq_ok.mp hpush).2, names_append, List.append_assoc]
            rfl
          rw [← hall, pushAll, hpush]
          exact ih hk

namespace Build

variable {α β : Type} {catalog : Catalog} {w w' : Workspace} {f : BuildFault}

-- ========================================================= meaning

/-- The meaning of something written: the fault is an unknown type with
one of the marks, or a column named twice, which has no mark. -/
def Understood (marks : List Nat) (repeats : Bool) (R : α → Prop) : Except BuildFault α → Prop
  | .ok a => repeats = false ∧ R a
  | .error f => (∃ m ∈ marks, ∃ name, f = ⟨.undefinedType name, some m⟩) ∨
    repeats = true ∧ ∃ c, f = ⟨.heading (.duplicateColumn c), none⟩

/-- A heading of columns that are understood. -/
theorem Understood.makeHeading {columns : List (String × TypeExpr)}
    {r : Except BuildFault (List Column)}
    (h : Understood (columnMarks columns) (repeatsInside columns)
      (fun cs => Heading.names cs = columns.map Prod.fst) r) :
    Understood (columnMarks columns) (columnsRepeat columns) (fun _ => True)
      (r >>= Build.makeHeading) := by
  unfold columnsRepeat
  cases r with
  | error f =>
      refine h.imp_right fun hrepeats => ⟨?_, hrepeats.2⟩
      rw [hrepeats.1, Bool.or_true]
  | ok cs =>
      obtain ⟨hinside, hnames⟩ := h
      rw [hinside, Bool.or_false, ← hnames]
      show Understood _ _ _ ((Heading.pushAll [] cs).mapError _)
      obtain ⟨k, hpush, hnodup⟩ | ⟨c, hpush, hrepeats⟩ :=
        Heading.pushAll_cases (h := []) List.nodup_nil cs
      · have hdistinct : (Heading.names cs).Nodup := hnodup
        rw [hpush]
        exact ⟨by simpa using hdistinct, trivial⟩
      · have htwice : ¬ (Heading.names cs).Nodup := hrepeats
        rw [hpush]
        exact .inr ⟨by simpa using htwice, c, rfl⟩

/-- What is done with a result cannot fail. -/
theorem Understood.map {marks : List Nat} {repeats : Bool} {R : α → Prop} {r : Except BuildFault α}
    (h : Understood marks repeats R r) (k : α → β) :
    Understood marks repeats (fun _ => True) (r >>= fun a => pure (k a)) := by
  cases r with
  | ok a => exact ⟨h.1, trivial⟩
  | error f => exact h

mutual

/-- A written type fails for a name that is no type, or for a heading in it
that repeats a column. -/
theorem typeOf_understood (catalog : Catalog) :
    ∀ t : TypeExpr, Understood t.marks t.repeats (fun _ => True) (typeOf catalog t)
  | .named name mark => by
      rw [TypeExpr.marks, TypeExpr.repeats, typeOf]
      cases hnamed : namedType catalog name with
      | ok type => exact ⟨rfl, trivial⟩
      | error e =>
          -- a name that is no type is refused at its mark
          refine .inl ⟨mark, List.mem_singleton_self mark, name, ?_⟩
          unfold namedType at hnamed
          split at hnamed
          · cases hnamed
          · split at hnamed
            · split at hnamed
              · cases hnamed
              · cases hnamed
                rfl
            · cases hnamed
              rfl
  | .tuple columns => by
      -- the columns come before the heading that is made of them
      have hheading := (columnsOf_understood catalog columns).makeHeading
      have htype := hheading.map DataType.tuple
      rw [bind_assoc] at htype
      rw [TypeExpr.marks, TypeExpr.repeats, typeOf]
      exact htype
  | .relation columns => by
      have hheading := (columnsOf_understood catalog columns).makeHeading
      have htype := hheading.map DataType.relation
      rw [bind_assoc] at htype
      rw [TypeExpr.marks, TypeExpr.repeats, typeOf]
      exact htype

/-- Columns are understood in turn, and repeat nothing so far. -/
theorem columnsOf_understood (catalog : Catalog) :
    ∀ columns : List (String × TypeExpr), Understood (columnMarks columns) (repeatsInside columns)
      (fun cs => Heading.names cs = columns.map Prod.fst) (columnsOf catalog columns)
  | [] => by
      rw [columnMarks, repeatsInside, columnsOf]
      exact ⟨rfl, rfl⟩
  | (name, t) :: rest => by
      have htype := typeOf_understood catalog t
      have hrest := columnsOf_understood catalog rest
      rw [columnMarks, repeatsInside, columnsOf]
      cases htypeOf : typeOf catalog t with
      | error f =>
          rw [htypeOf] at htype
          rcases htype with ⟨m, hm, hf⟩ | ⟨hrepeats, hf⟩
          · exact .inl ⟨m, List.mem_append_left _ hm, hf⟩
          · exact .inr ⟨by rw [hrepeats, Bool.true_or], hf⟩
      | ok type =>
          rw [htypeOf] at htype
          cases hcolumns : columnsOf catalog rest with
          | error f =>
              rw [hcolumns] at hrest
              rcases hrest with ⟨m, hm, hf⟩ | ⟨hrepeats, hf⟩
              · exact .inl ⟨m, List.mem_append_right _ hm, hf⟩
              · exact .inr ⟨by rw [hrepeats, Bool.or_true], hf⟩
          | ok cs =>
              rw [hcolumns] at hrest
              refine ⟨by rw [htype.1, hrest.1]; rfl, ?_⟩
              exact congrArg (name :: ·) hrest.2

end

/-- A heading fails for what is in its types, or for a column of its own
that is repeated. -/
theorem headingOf_understood (catalog : Catalog) (columns : List (String × TypeExpr)) :
    Understood (columnMarks columns) (columnsRepeat columns) (fun _ => True)
      (headingOf catalog columns) :=
  (columnsOf_understood catalog columns).makeHeading

/-- A name that is unknown is marked where it stands; a repeated column has
no mark. -/
theorem heading_eq_error {columns : List (String × TypeExpr)}
    (h : heading catalog columns w = .error f w') :
    (∃ m ∈ columnMarks columns, ∃ name, f = ⟨.undefinedType name, some m⟩) ∨
      columnsRepeat columns = true ∧ ∃ c, f = ⟨.heading (.duplicateColumn c), none⟩ := by
  have hunderstood := headingOf_understood catalog columns
  unfold heading at h
  cases hheading : headingOf catalog columns with
  | ok k =>
      rw [hheading] at h
      cases h
  | error e =>
      rw [hheading] at h hunderstood
      cases h
      exact hunderstood

/-- A heading that was made repeats no column. -/
theorem heading_eq_ok {columns : List (String × TypeExpr)} {k : Heading}
    (h : heading catalog columns w = .ok k w') : w' = w ∧ columnsRepeat columns = false := by
  have hunderstood := headingOf_understood catalog columns
  unfold heading at h
  cases hheading : headingOf catalog columns with
  | error e =>
      rw [hheading] at h
      cases h
  | ok other =>
      rw [hheading] at h hunderstood
      cases h
      exact ⟨rfl, hunderstood.1⟩

end Build

end RelQuery
