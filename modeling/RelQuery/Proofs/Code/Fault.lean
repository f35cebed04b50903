/-
What can stop the writing of code.

Writing stops for one of four reasons: a name or a length that is too
large, a call with more than 255 arguments, or a placeholder type. The
first ones are a matter of size and can happen anywhere. A placeholder
can only stand in a literal or in a heading, so whoever knows these for
a tree knows whether its code can be stopped by one.

`Faults P` says of written bytes that whatever stopped them satisfies
`P`. It is followed from single bytes up to the code of a whole tree,
for any `P` that allows the matters of size.
-/
import RelQuery.Node.Lowering
import RelQuery.Proofs.Node.Own
import RelQuery.Proofs.Type.Definite

namespace RelQuery

/-- What is a matter of size is allowed. -/
structure AllowsSizes (P : EncodeError → Prop) : Prop where
  nameTooLong : ∀ name, P (.nameTooLong name)
  tooLarge : ∀ what, P (.tooLarge what)
  arityOverflow : ∀ name n, 255 < n → P (.arityOverflow name n)

variable {P : EncodeError → Prop}

namespace Chunk

/-- Whatever stopped the writing satisfies `P`. -/
def Faults (P : EncodeError → Prop) (c : Chunk) : Prop :=
  ∀ e ∈ c.fault, P e

variable {a b : Chunk}

theorem Faults.ofBytes (bytes : List UInt8) : (ofBytes bytes).Faults P :=
  fun _ h => nomatch h

theorem Faults.fail {e : EncodeError} (h : P e) : (Chunk.fail e).Faults P := by
  rintro _ ⟨⟩
  exact h

/-- The fault of two chunks is that of one of them. -/
theorem Faults.append (ha : a.Faults P) (hb : b.Faults P) : (a ++ b).Faults P := by
  show (Chunk.append a b).Faults P
  unfold Chunk.append
  split
  · exact ha
  · exact hb

/-- A number is a fault only if it does not fit its bytes. -/
theorem Faults.sized {count n : Nat} {e : EncodeError} (h : Nat.pow 256 count ≤ n → P e) :
    (sized count n e).Faults P := by
  unfold Chunk.sized
  split
  · exact .ofBytes _
  · exact .fail (h (Nat.le_of_not_lt ‹_›))

theorem Faults.length16 (hP : AllowsSizes P) (n : Nat) (what : String) :
    (length16 n what).Faults P :=
  .sized fun _ => hP.tooLarge what

theorem Faults.length32 (hP : AllowsSizes P) (n : Nat) (what : String) :
    (length32 n what).Faults P :=
  .sized fun _ => hP.tooLarge what

theorem Faults.name (hP : AllowsSizes P) (s : String) : (name s).Faults P :=
  .append (.sized fun _ => hP.nameTooLong s) (.ofBytes _)

theorem Faults.arity (hP : AllowsSizes P) (callee : String) (n : Nat) :
    (arity callee n).Faults P :=
  .sized fun h => hP.arityOverflow callee n h

end Chunk

open Chunk (Faults)

-- ================================================= types and values

namespace DataType

mutual

/-- Writing a type stops at a placeholder in it, or because of a size. -/
theorem encode_faults (hP : AllowsSizes P) : ∀ {t : DataType},
    t.isDefinite = true ∨ (∀ u, P (.placeholder u)) → t.encode.Faults P
  | .bool, _ | .number, _ | .text, _ | .binary, _ | .time, _ | .code, _ | .void, _ => .ofBytes _
  | .tuple h, ht => .append (.ofBytes _) (.append (.length16 hP _ _) (encodeColumns_faults hP ht))
  | .relation h, ht =>
      .append (.ofBytes _) (.append (.length16 hP _ _) (encodeColumns_faults hP ht))
  | .user ⟨n, h, s⟩, ht => by
      have hcolumns := encodeColumns_faults hP (ht.imp_left fun h => (Bool.and_eq_true_iff.mp h).1)
      have hsuper := encodeSuper_faults hP (ht.imp_left fun h => (Bool.and_eq_true_iff.mp h).2)
      exact .append (.ofBytes _)
        (.append (.name hP n) (.append (.append (.length16 hP _ _) hcolumns) hsuper))
  | .unknown, ht | .table, ht | .row, ht | .ordered, ht | .ordinal, ht | .any, ht =>
      .fail (ht.resolve_left Bool.false_ne_true _)

/-- A supertype that is not definite is a fault wherever it is written. -/
theorem encodeSuper_faults (hP : AllowsSizes P) : ∀ {s : Option DataType},
    superDefinite s = true ∨ (∀ u, P (.placeholder u)) → (encodeSuper s).Faults P
  | none, _ => .ofBytes _
  | some _, h => .append (.ofBytes _) (encode_faults hP h)

theorem encodeColumns_faults (hP : AllowsSizes P) : ∀ {columns : List Column},
    columnsDefinite columns = true ∨ (∀ u, P (.placeholder u)) → (encodeColumns columns).Faults P
  | [], _ => .ofBytes _
  | ⟨n, _⟩ :: _, h => by
      have htype := encode_faults hP (h.imp_left fun h => (Bool.and_eq_true_iff.mp h).1)
      have hrest := encodeColumns_faults hP (h.imp_left fun h => (Bool.and_eq_true_iff.mp h).2)
      exact .append (.name hP n) (.append htype hrest)

end

end DataType

/-- The heading of definite types fails only where a size does. -/
theorem Heading.encode_faults (hP : AllowsSizes P) {h : Heading}
    (hh : h.IsDefinite ∨ ∀ u, P (.placeholder u)) : (Heading.encode h).Faults P :=
  .append (.length16 hP _ _)
    (DataType.encodeColumns_faults hP (hh.imp_left DataType.columnsDefinite_iff.mpr))

namespace Value

/-- The values that a text can write as one word. -/
def isScalar : Value → Bool
  | .bool _ | .number _ | .text _ | .time _ => true
  | _ => false

/-- A scalar value fails only where a size does. -/
theorem encode_faults_scalar (hP : AllowsSizes P) {v : Value} (h : v.isScalar = true) :
    v.encode.Faults P := by
  cases v with
  | bool _ => exact .append (.ofBytes _) (.ofBytes _)
  | number _ => exact .append (.ofBytes _) (.ofBytes _)
  | text s => exact .append (.ofBytes _) (.append (.length32 hP _ _) (.ofBytes _))
  | time _ => exact .append (.ofBytes _) (.ofBytes _)
  | _ => cases h

mutual

/-- Where placeholders are allowed, so is whatever stops a value. -/
theorem encode_faults (hP : AllowsSizes P) (hp : ∀ u, P (.placeholder u)) :
    ∀ v : Value, v.encode.Faults P
  | .void => .ofBytes _
  | .bool _ | .number _ | .time _ => .append (.ofBytes _) (.ofBytes _)
  | .text _ | .binary _ => .append (.ofBytes _) (.append (.length32 hP _ _) (.ofBytes _))
  | .tuple fields =>
      .append (.ofBytes _) (.append (.length16 hP _ _) (encodeFields_faults hP hp fields))
  | .relation _ rows =>
      .append (.ofBytes _) (.append (Heading.encode_faults hP (.inr hp))
        (.append (.length32 hP _ _) (encodeRows_faults hP hp rows)))
  | .heading _ => .append (.ofBytes _) (Heading.encode_faults hP (.inr hp))

/-- The fields of a value fail as its cells do. -/
theorem encodeFields_faults (hP : AllowsSizes P) (hp : ∀ u, P (.placeholder u)) :
    ∀ fields : List (String × Value), (encodeFields fields).Faults P
  | [] => .ofBytes _
  | (n, v) :: rest =>
      .append (.name hP n) (.append (encode_faults hP hp v) (encodeFields_faults hP hp rest))

/-- The rows of a value fail as its cells do. -/
theorem encodeRows_faults (hP : AllowsSizes P) (hp : ∀ u, P (.placeholder u)) :
    ∀ rows : List (List Value), (encodeRows rows).Faults P
  | [] => .ofBytes _
  | row :: rest => .append (encodeCells_faults hP hp row) (encodeRows_faults hP hp rest)

/-- The cells of a value fail as each of them does. -/
theorem encodeCells_faults (hP : AllowsSizes P) (hp : ∀ u, P (.placeholder u)) :
    ∀ cells : List Value, (encodeCells cells).Faults P
  | [] => .ofBytes _
  | v :: rest => .append (encode_faults hP hp v) (encodeCells_faults hP hp rest)

end

end Value

-- ===================================================== instructions

namespace Instruction

/-- What an instruction holds apart from names and numbers can be
written, but for faults that satisfy `P`. -/
def Fits (P : EncodeError → Prop) : Instruction → Prop
  | .loadValue v => v.encode.Faults P
  | .loadSegment block body => (assembleAll body).Faults P ∧ (Heading.encode block.lookup).Faults P
  | _ => True

/-- An instruction that fits raises only what is allowed. -/
theorem assemble_faults (hP : AllowsSizes P) {i : Instruction} (h : i.Fits P) :
    (assemble i).Faults P := by
  cases i with
  | loadSegment block body =>
      rw [assemble]
      split
      · exact .fail (h.1 _ ‹_›)
      · refine .append (.ofBytes _) (.append (.name hP _) (.append (.ofBytes _) ?_))
        exact .append (.length16 hP _ _) (.append (.ofBytes _)
          (.append h.2 (.append (.length32 hP _ _) (.ofBytes _))))
  | loadValue v => exact .append (.ofBytes _) h
  | finish | loadAccumulators | loadLookup => exact .append (.ofBytes _) (.ofBytes _)
  | call n arity => exact .append (.ofBytes _) (.append (.name hP n) (.arity hP n arity))
  | callVariadic n fixed more | callVariadicTable n fixed more =>
      exact .append (.ofBytes _)
        (.append (.name hP n) (.append (.arity hP n fixed) (.arity hP n more)))
  | _ => exact .append (.ofBytes _) (.name hP _)

/-- All instructions fit. -/
def FitsAll (P : EncodeError → Prop) (code : List Instruction) : Prop :=
  ∀ i ∈ code, i.Fits P

namespace FitsAll

variable {i : Instruction} {xs ys : List Instruction}

theorem nil : FitsAll P [] :=
  fun _ h => absurd h List.not_mem_nil

theorem cons (hi : i.Fits P) (hx : FitsAll P xs) : FitsAll P (i :: xs) :=
  List.forall_mem_cons.mpr ⟨hi, hx⟩

theorem one (hi : i.Fits P) : FitsAll P [i] :=
  cons hi nil

theorem append (hx : FitsAll P xs) (hy : FitsAll P ys) : FitsAll P (xs ++ ys) :=
  List.forall_mem_append.mpr ⟨hx, hy⟩

end FitsAll

/-- A listing of instructions that fit raises only what is allowed. -/
theorem assembleAll_faults (hP : AllowsSizes P) {code : List Instruction} (h : FitsAll P code) :
    (assembleAll code).Faults P := by
  induction code with
  | nil => exact .ofBytes _
  | cons i rest ih =>
      obtain ⟨hi, hrest⟩ := List.forall_mem_cons.mp h
      rw [assembleAll]
      exact .append (assemble_faults hP hi) (ih hrest)

/-- Text fails only where a size does. -/
theorem loadText_fits (hP : AllowsSizes P) (s : String) : (loadText s).Fits P :=
  Value.encode_faults_scalar (v := .text s) hP rfl

theorem loadHeading_fits {h : Heading} (hh : (Heading.encode h).Faults P) :
    (loadHeading h).Fits P :=
  .append (.ofBytes _) hh

theorem loadSlot_fits (hP : AllowsSizes P) (slot : Nat) : FitsAll P (loadSlot slot) :=
  .cons trivial (.one (Value.encode_faults_scalar (v := .number _) hP rfl))

/-- A slot that may be missing is loaded or not. -/
theorem loadSlot?_fits (hP : AllowsSizes P) (slot : Option Nat) :
    FitsAll P (loadSlot? slot) := by
  cases slot with
  | none => exact .nil
  | some n => exact loadSlot_fits hP n

/-- A call fails only where its number of arguments does. -/
theorem callFor_fits (isRelation : Bool) (name : String) (fixed more : Nat) :
    (callFor isRelation name fixed more).Fits P := by
  cases isRelation with
  | false => trivial
  | true => trivial

end Instruction

-- ============================================================ trees

namespace Node

open Instruction

/-- The headings that the code of a node holds: that of a row, table or
projection, and what its segments read. -/
def headings : Node → List Heading
  | .row heading _ | .table heading _ | .project _ heading _ => [heading]
  | n => n.segments.map (·.lookup)

/-- The literal and the headings of a node can be written, but for
faults that satisfy `P`. -/
structure Encodes (P : EncodeError → Prop) (n : Node) : Prop where
  headings : ∀ h ∈ n.headings, (Heading.encode h).Faults P
  literal : ∀ v, n = .literal v → v.encode.Faults P

/-- The code of several trees is that of each, in turn. -/
theorem lowerAll_eq (nodes : List Node) : lowerAll nodes = nodes.flatMap lower := by
  induction nodes with
  | nil => rfl
  | cons node rest ih => rw [lowerAll, ih, List.flatMap_cons]

/-- The segments of a tree are lowered one by one. -/
theorem lowerSegments_eq (segments : List Segment) :
    lowerSegments segments = segments.map Segment.lower := by
  induction segments with
  | nil => rfl
  | cons s rest ih =>
      obtain ⟨name, kind, accums, flags, lookup, body⟩ := s
      rw [lowerSegments, ih]
      rfl

/-- Loading a variable is an instruction without sizes to overflow, besides
its name. -/
theorem lowerVariable_fits (name : String) (source : VariableSource) :
    FitsAll P (lowerVariable name source) := by
  cases source with
  | component => exact .cons trivial (.one trivial)
  | _ => exact .one trivial

/-- Pairs of names are loaded as texts. -/
theorem lowerPairs_fits (hP : AllowsSizes P) (pairs : List (String × String)) :
    FitsAll P (lowerPairs pairs) := by
  induction pairs with
  | nil => exact .nil
  | cons pair rest ih => exact .cons (loadText_fits hP _) (.cons (loadText_fits hP _) ih)

/-- What stops the code of a tree satisfies `P`, if that holds of all
literals and headings in it. -/
theorem lower_fits (hP : AllowsSizes P) (n : Node) (h : n.Everywhere (Encodes P)) :
    FitsAll P n.lower := by
  induction n using parts_induction with
  | step n ih =>
  -- the parts of a node are its operands and the bodies of its segments
  obtain ⟨hn, hoperands, -, hsegments⟩ := everywhere_iff.mp h
  have hbase (m : Node) (hm : m ∈ n.operands) : FitsAll P m.lower :=
    ih m (List.mem_append_left _ hm) (hoperands m hm)
  have hall : FitsAll P (lowerAll n.operands) := by
    rw [lowerAll_eq]
    exact List.forall_mem_flatMap.mpr hbase
  have hsegment (s : Segment) (hs : s ∈ n.segments) (hlookup : s.lookup ∈ n.headings) :
      s.lower.Fits P := by
    refine ⟨assembleAll_faults hP (ih s.body ?_ (hsegments s hs)), hn.headings _ hlookup⟩
    exact List.mem_append_right _ (List.mem_append_right _ (List.mem_map_of_mem hs))
  have hsegments (segments : List Segment) (hsub : segments ⊆ n.segments)
      (hlookups : ∀ s ∈ segments, s.lookup ∈ n.headings) : FitsAll P (lowerSegments segments) := by
    rw [lowerSegments_eq]
    exact List.forall_mem_map.mpr fun s hs => hsegment s (hsub hs) (hlookups s hs)
  -- what is left of each kind are the instructions that it adds to the code of
  -- its parts
  cases n with
  | literal v => exact .one (hn.literal v rfl)
  | «variable» name source type => exact lowerVariable_fits name source
  | currentRow type => exact .one trivial
  | inlined name value => exact hbase value List.mem_cons_self
  | block bindings body => exact hbase body List.mem_cons_self
  | call link args type slot =>
      exact .append (loadSlot?_fits hP slot) (.append hall (.one trivial))
  | variadic link args type => exact .append hall (.one (callFor_fits _ _ _ _))
  | function link args type slot =>
      exact .cons trivial (.append (loadSlot?_fits hP slot) (.append hall (.one trivial)))
  | fold op slot arg type =>
      have harg := hbase arg List.mem_cons_self
      exact .append (loadSlot_fits hP slot)
        (.cons (loadText_fits hP op) (.append harg (.one trivial)))
  | row heading values | table heading values =>
      have hheading := hn.headings heading List.mem_cons_self
      exact .cons (loadHeading_fits hheading) (.append hall (.one trivial))
  | selector user args => exact .cons (loadText_fits hP _) (.append hall (.one trivial))
  | project base heading type =>
      have hheading := hn.headings heading List.mem_cons_self
      exact .append (hbase base List.mem_cons_self)
        (.cons (loadHeading_fits hheading) (.one trivial))
  | rename base pairs type =>
      exact .append (hbase base List.mem_cons_self)
        (.append (lowerPairs_fits hP pairs) (.one (callFor_fits _ _ _ _)))
  | transform base kind keys fields accums type =>
      have hlookups (s : Segment) (hs : s ∈ keys ++ fields) :
          s.lookup ∈ (transform base kind keys fields accums type).headings :=
        List.mem_map_of_mem hs
      have hkeys := hsegments keys (List.subset_append_left _ _) fun s hs =>
        hlookups s (List.mem_append_left _ hs)
      have hfields := hsegments fields (List.subset_append_right _ _) fun s hs =>
        hlookups s (List.mem_append_right _ hs)
      exact .append (hbase base List.mem_cons_self)
        (.append hkeys (.append hfields (.one (callFor_fits _ _ _ _))))
  | restrict base predicate =>
      have hpredicate := hsegment predicate List.mem_cons_self List.mem_cons_self
      obtain ⟨name, kind, accums, flags, lookup, body⟩ := predicate
      exact .append (hbase base List.mem_cons_self) (.cons hpredicate (.one trivial))
  | order base keys =>
      have hkeys := hsegments keys (List.Subset.refl _) fun s hs => List.mem_map_of_mem hs
      exact .append (hbase base List.mem_cons_self) (.append hkeys (.one trivial))
  | code segment =>
      have hcode := hsegment segment List.mem_cons_self List.mem_cons_self
      obtain ⟨name, kind, accums, flags, lookup, body⟩ := segment
      exact .one hcode
  | component base name type | tupleField base name type =>
      exact .append (hbase base List.mem_cons_self) (.one trivial)

end Node

-- ======================================================= statements

namespace Statement

open Instruction

/-- The headings that the code of a statement holds besides those in
its tree: parameters, components, and what a function reads. -/
def headings : Statement → List Heading
  | .define _ link body => [link.args.foldl Heading.insertNew [], body.lookup]
  | .typeDef user => [user.heading]
  | _ => []

/-- What stops the code of a statement satisfies `P`, if that holds of
all literals and headings in it. -/
theorem emit_faults (hP : AllowsSizes P) {s : Statement}
    (hroot : ∀ root ∈ s.root?, root.Everywhere (Node.Encodes P))
    (hheadings : ∀ h ∈ s.headings, (Heading.encode h).Faults P) {e : EncodeError}
    (h : s.emit = .error e) : P e := by
  -- the code of a statement is that of its tree with loads and calls around it
  have hcode : FitsAll P s.lower := by
    cases s with
    | expression value => exact .append (Node.lower_fits hP value (hroot value rfl)) (.one trivial)
    | assign name value =>
        exact .cons (loadText_fits hP name)
          (.append (Node.lower_fits hP value (hroot value rfl)) (.cons trivial (.one trivial)))
    | define name link body =>
        have hbody : body.lower.Fits P :=
          ⟨assembleAll_faults hP (Node.lower_fits hP body.body (hroot body.body rfl)),
            hheadings _ (List.mem_cons_of_mem _ List.mem_cons_self)⟩
        exact .cons (loadText_fits hP name)
          (.cons (loadHeading_fits (hheadings _ List.mem_cons_self))
            (.cons hbody (.cons trivial (.one trivial))))
    | typeDef user =>
        exact .cons (loadText_fits hP user.name)
          (.cons (loadHeading_fits (hheadings _ List.mem_cons_self))
            (.cons trivial (.one trivial)))
  have hfaults := assembleAll_faults hP hcode
  unfold emit Chunk.result at h
  split at h
  · cases h
    exact hfaults e ‹_›
  · cases h

/-- A call that is refused for its arguments has more than 255. -/
theorem lt_of_emit_arityOverflow {s : Statement} {name : String} {n : Nat}
    (h : s.emit = .error (.arityOverflow name n)) : 255 < n := by
  have hP : AllowsSizes fun e => ∀ name n, e = .arityOverflow name n → 255 < n := by
    refine ⟨fun _ _ _ h => (nomatch h), fun _ _ _ h => (nomatch h), ?_⟩
    rintro _ n hn _ _ ⟨⟩
    exact hn
  have hheading (h : Heading) := Heading.encode_faults hP (h := h) (.inr fun _ _ _ h => nomatch h)
  have hvalue := Value.encode_faults hP fun _ _ _ h => nomatch h
  refine emit_faults hP ?_ (fun h _ => hheading h) h name n rfl
  exact fun root _ m _ => ⟨fun h _ => hheading h, fun v _ => hvalue v⟩

end Statement

end RelQuery
