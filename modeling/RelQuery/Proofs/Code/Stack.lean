/-
Code and the stack it runs on.

`run` follows the depth of the stack through a list of instructions and
stops where one takes more than there is. `Pushes is n` says all that
lowering promises of a piece of code: from any depth it leaves `n`
values more, nothing ends within it, and every segment in it holds the
bytes of its own instructions. Pieces are put one after another, and a
call turns the values before it into one.

Decoding assembled code gives its instructions with their literals cut
to what the binary form keeps, at every depth (`cut?`); neither the
stack nor the nesting depends on literals.
-/
import RelQuery.Node.Lowering
import RelQuery.Proofs.Code.RoundTrip

namespace RelQuery

namespace Instruction

-- ======================================================== the stack

/-- The values that an instruction takes from the stack. -/
def pops : Instruction → Nat
  | .loadComponent _ | .loadTupleField _ => 1
  | .call _ arity => arity
  | .callVariadic _ fixed more | .callVariadicTable _ fixed more => fixed + more
  | _ => 0

/-- The values that an instruction puts on the stack. -/
def pushes : Instruction → Nat
  | .finish => 0
  | _ => 1

/-- The depth of the stack after instructions; none where one takes
more than there is. -/
def run (depth : Nat) : List Instruction → Option Nat
  | [] => some depth
  | i :: rest => if i.pops ≤ depth then run (depth - i.pops + i.pushes) rest else none

mutual

/-- Not the end of a statement; the code of a segment leaves one value
and holds no end at any depth. -/
def isBalanced : Instruction → Bool
  | .finish => false
  | .loadSegment _ body => run 0 body == some 1 && allBalanced body
  | _ => true

/-- Every instruction of a listing is balanced. -/
def allBalanced : List Instruction → Bool
  | [] => true
  | i :: rest => i.isBalanced && allBalanced rest

end

/-- A listing runs on what the one before it left on the stack. -/
theorem run_append (xs ys : List Instruction) (depth : Nat) :
    run depth (xs ++ ys) = (run depth xs).bind fun d => run d ys := by
  induction xs generalizing depth with
  | nil => rfl
  | cons i xs ih =>
      rw [List.cons_append, run, run]
      split
      · exact ih _
      · rfl

/-- Two listings are balanced if both are. -/
theorem allBalanced_append (xs ys : List Instruction) :
    allBalanced (xs ++ ys) = (allBalanced xs && allBalanced ys) := by
  induction xs with
  | nil => rfl
  | cons i xs ih => rw [List.cons_append, allBalanced, allBalanced, ih, Bool.and_assoc]

-- ========================================================= literals

mutual

/-- The instruction with its literals cut to what the binary form
keeps, at every depth. -/
def cut? : Instruction → Option Instruction
  | .loadValue v => v.cut?.map .loadValue
  | .loadSegment block body => (cutAll? body).map (.loadSegment block)
  | i => some i

/-- A listing with its moments cut to milliseconds, if all can be. -/
def cutAll? : List Instruction → Option (List Instruction)
  | [] => some []
  | i :: rest => i.cut?.bind fun i => (cutAll? rest).map fun rest => i :: rest

end

/-- Two listings are cut one after the other. -/
theorem cutAll?_append (xs ys : List Instruction) :
    cutAll? (xs ++ ys) = (cutAll? xs).bind fun js => (cutAll? ys).map fun ks => js ++ ks := by
  induction xs with
  | nil => simp [cutAll?]
  | cons i xs ih =>
      rw [List.cons_append, cutAll?, ih, cutAll?]
      cases i.cut? with
      | none => rfl
      | some j =>
          cases cutAll? xs with
          | none => rfl
          | some js =>
              cases cutAll? ys with
              | none => rfl
              | some ks => rfl

mutual

/-- Cutting a literal changes nothing that the stack depends on. -/
theorem cut?_eq_some : ∀ {i j : Instruction}, i.cut? = some j →
    j.pops = i.pops ∧ j.pushes = i.pushes ∧ j.isBalanced = i.isBalanced
  | .loadValue v, j, h => by
      obtain ⟨w, -, rfl⟩ := Option.map_eq_some_iff.mp h
      exact ⟨rfl, rfl, rfl⟩
  | .loadSegment block body, j, h => by
      obtain ⟨js, hjs, rfl⟩ := Option.map_eq_some_iff.mp h
      obtain ⟨hrun, hbalanced⟩ := cutAll?_eq_some hjs
      refine ⟨rfl, rfl, ?_⟩
      rw [isBalanced, isBalanced, hrun, hbalanced]
  | .finish, _, rfl | .loadCatalog _, _, rfl | .loadCatalogRef _, _, rfl | .loadField _, _, rfl
  | .loadComponent _, _, rfl | .loadTupleField _, _, rfl | .loadAccumulators, _, rfl
  | .loadLookup, _, rfl | .call .., _, rfl | .callVariadic .., _, rfl
  | .callVariadicTable .., _, rfl => ⟨rfl, rfl, rfl⟩

theorem cutAll?_eq_some : ∀ {is js : List Instruction}, cutAll? is = some js →
    (∀ depth, run depth js = run depth is) ∧ allBalanced js = allBalanced is
  | [], _, rfl => ⟨fun _ => rfl, rfl⟩
  | i :: rest, js, h => by
      obtain ⟨j, hj, h⟩ := Option.bind_eq_some_iff.mp h
      obtain ⟨js, hjs, rfl⟩ := Option.map_eq_some_iff.mp h
      obtain ⟨hpops, hpushes, hi⟩ := cut?_eq_some hj
      obtain ⟨hrun, hrest⟩ := cutAll?_eq_some hjs
      constructor
      · intro depth
        rw [run, run, hpops, hpushes, hrun]
      · rw [allBalanced, allBalanced, hi, hrest]

end

-- ======================================================== assembly

mutual

/-- Literals and headings are well formed, and a segment holds the
bytes of its own instructions, at every depth. -/
def IsAssembled : Instruction → Prop
  | .loadValue v => v.isWellFormed = true
  | .loadSegment block body =>
    block.code = (assembleAll body).bytes ∧ Heading.namesDistinct block.lookup = true ∧
      AllAssembled body
  | _ => True

/-- Every instruction of a listing has been assembled. -/
def AllAssembled : List Instruction → Prop
  | [] => True
  | i :: rest => i.IsAssembled ∧ AllAssembled rest

end

mutual

/-- The times in the literals of an instruction, those in segments
included. -/
def times : Instruction → List Moment
  | .loadValue v => v.times
  | .loadSegment _ body => allTimes body
  | _ => []

/-- The moments in a listing, in order. -/
def allTimes : List Instruction → List Moment
  | [] => []
  | i :: rest => i.times ++ allTimes rest

end

mutual

/-- An instruction can be cut if none of its moments is the last leap
second. -/
theorem IsAssembled.isSome_cut? : ∀ {i : Instruction}, i.IsAssembled →
    (i.cut?.isSome = true ↔ ∀ m ∈ i.times, m.isLastLeap = false)
  | .loadValue v, hi => by
      rw [cut?, times, Option.isSome_map]
      exact Value.isSome_cut? v hi
  | .loadSegment block body, hi => by
      rw [cut?, times, Option.isSome_map]
      exact AllAssembled.isSome_cutAll? hi.2.2
  | .finish, _ | .loadCatalog _, _ | .loadCatalogRef _, _ | .loadField _, _
  | .loadComponent _, _ | .loadTupleField _, _ | .loadAccumulators, _ | .loadLookup, _
  | .call .., _ | .callVariadic .., _ | .callVariadicTable .., _ => by simp [cut?, times]

/-- Code has a cut form unless a literal holds the leap second at the
end of the last day. -/
theorem AllAssembled.isSome_cutAll? : ∀ {is : List Instruction}, AllAssembled is →
    ((cutAll? is).isSome = true ↔ ∀ m ∈ allTimes is, m.isLastLeap = false)
  | [], _ => by simp [cutAll?, allTimes]
  | i :: rest, hi => by
      rw [cutAll?, allTimes, List.forall_mem_append, ← IsAssembled.isSome_cut? hi.1,
        ← AllAssembled.isSome_cutAll? hi.2]
      exact isSome_bind_map

end

/-- Two listings are assembled if both are. -/
theorem allAssembled_append (xs ys : List Instruction) :
    AllAssembled (xs ++ ys) ↔ AllAssembled xs ∧ AllAssembled ys := by
  induction xs with
  | nil => simp [AllAssembled]
  | cons i xs ih => rw [List.cons_append, AllAssembled, AllAssembled, ih, and_assoc]

/-- A segment is assembled once its body is. -/
theorem assemble_segment {block : CodeBlock} {body : List Instruction} {bytes : List UInt8}
    (h : assemble (.loadSegment block body) = .ofBytes bytes) :
    encode (.loadSegment block body) = .ofBytes bytes ∧ (assembleAll body).fault = none := by
  rw [assemble] at h
  cases hfault : (assembleAll body).fault with
  | some e =>
      rw [hfault] at h
      exact absurd h Chunk.fail_ne_ofBytes
  | none =>
      rw [hfault] at h
      exact ⟨h, rfl⟩

mutual

/-- An assembled instruction is written as it stands and reads back
cut. -/
theorem IsAssembled.readable : ∀ {i : Instruction} {bytes : List UInt8}, i.IsAssembled →
    i.assemble = .ofBytes bytes →
      i.encode = .ofBytes bytes ∧ i.IsReadable ∧ i.readBack? = i.cut?
  | .loadValue v, _, hi, h => ⟨h, hi, rfl⟩
  | .loadSegment block body, _, hi, h => by
      -- a segment holds its code as bytes, so its body is decoded from them
      obtain ⟨hcode, hlookup, hbody⟩ := hi
      obtain ⟨hencode, hfault⟩ := assemble_segment h
      have hwritten : assembleAll body = .ofBytes block.code := by
        rw [hcode]
        exact Chunk.result_eq_ok.mp (by rw [Chunk.result, hfault])
      have hends := AllAssembled.ends hbody hwritten
      rw [readBack?, cut?]
      -- the body can be cut just if its bytes can be decoded
      cases ho : cutAll? body with
      | some js =>
          rw [ho] at hends
          rw [decodeAll_of_ends_some hends]
          refine ⟨hencode, ⟨hlookup, fun e he => ?_⟩, rfl⟩
          rw [decodeAll_of_ends_some hends] at he
          cases he
      | none =>
          rw [ho] at hends
          obtain ⟨place, hplace⟩ := decodeAll_of_ends_none hends
          rw [hplace]
          refine ⟨hencode, ⟨hlookup, fun e he => ?_⟩, rfl⟩
          rw [hplace] at he
          cases he
          exact ⟨place, rfl⟩
  -- anything else holds no body and no value
  | .finish, _, _, h | .loadCatalog _, _, _, h | .loadCatalogRef _, _, _, h
  | .loadField _, _, _, h | .loadComponent _, _, _, h | .loadTupleField _, _, _, h
  | .loadAccumulators, _, _, h | .loadLookup, _, _, h | .call .., _, _, h
  | .callVariadic .., _, _, h | .callVariadicTable .., _, _, h => ⟨h, trivial, rfl⟩

/-- A listing that is assembled can be read, and is read back as it was
cut. -/
theorem AllAssembled.readable : ∀ {is : List Instruction} {bytes : List UInt8},
    AllAssembled is → assembleAll is = .ofBytes bytes →
      encodeAll is = .ofBytes bytes ∧ (∀ i ∈ is, i.IsReadable) ∧ is.mapM readBack? = cutAll? is
  | [], _, _, h => ⟨h, fun _ hi => absurd hi List.not_mem_nil, rfl⟩
  | i :: rest, _, hi, h => by
      obtain ⟨xs, ys, hx, hy, rfl⟩ := Chunk.append_eq_ofBytes.mp h
      obtain ⟨hencode, hreadable, hback⟩ := IsAssembled.readable hi.1 hx
      obtain ⟨hencodes, hreadables, hbacks⟩ := AllAssembled.readable hi.2 hy
      refine ⟨Chunk.append_eq_ofBytes.mpr ⟨xs, ys, hencode, hencodes, rfl⟩, ?_, ?_⟩
      · rw [List.forall_mem_cons]
        exact ⟨hreadable, hreadables⟩
      · rw [List.mapM_cons, hback, hbacks, cutAll?]
        simp only [Option.map_eq_bind]
        rfl

/-- Assembled code reads back with its literals cut, to its last
byte. -/
theorem AllAssembled.ends {is : List Instruction} {bytes : List UInt8} (hi : AllAssembled is)
    (h : assembleAll is = .ofBytes bytes) :
    ByteReader.Ends ByteReader.instructions bytes (cutAll? is) := by
  obtain ⟨hencode, hreadable, hback⟩ := AllAssembled.readable hi h
  rw [← hback]
  exact ByteReader.instructions_end hencode hreadable

end

-- =================================================== pieces of code

/-- A piece of code that leaves `n` values more than there were. -/
structure Pushes (is : List Instruction) (n : Nat) : Prop where
  runs : ∀ depth, run depth is = some (depth + n)
  balanced : allBalanced is = true
  assembled : AllAssembled is

namespace Pushes

variable {xs ys : List Instruction} {m n : Nat}

theorem nil : Pushes [] 0 where
  runs := fun _ => rfl
  balanced := rfl
  assembled := trivial

/-- Code pushes what its two parts push. -/
theorem append (hx : Pushes xs m) (hy : Pushes ys n) : Pushes (xs ++ ys) (m + n) where
  runs := by
    intro depth
    rw [run_append, hx.runs, Option.bind_some, hy.runs, Nat.add_assoc]
  balanced := by rw [allBalanced_append, hx.balanced, hy.balanced, Bool.and_true]
  assembled := (allAssembled_append xs ys).mpr ⟨hx.assembled, hy.assembled⟩

/-- One instruction that takes nothing and leaves one value. -/
theorem load {i : Instruction} (hpops : i.pops = 0) (hpushes : i.pushes = 1)
    (hi : i.isBalanced = true) (ha : i.IsAssembled) : Pushes [i] 1 where
  runs := by
    intro depth
    rw [run, hpops, hpushes, if_pos (Nat.zero_le depth)]
    rfl
  balanced := by rw [allBalanced, hi, allBalanced, Bool.and_true]
  assembled := ⟨ha, trivial⟩

/-- A last instruction that turns all values before it into one. -/
theorem collect (hx : Pushes xs n) {i : Instruction} (hpops : i.pops = n) (hpushes : i.pushes = 1)
    (hi : i.isBalanced = true) (ha : i.IsAssembled) : Pushes (xs ++ [i]) 1 where
  runs := by
    intro depth
    rw [run_append, hx.runs, Option.bind_some, run, hpops, hpushes,
      if_pos (Nat.le_add_left n depth), Nat.add_sub_cancel]
    rfl
  balanced := by rw [allBalanced_append, hx.balanced, allBalanced, hi, allBalanced]; rfl
  assembled := (allAssembled_append xs [i]).mpr ⟨hx.assembled, ha, trivial⟩

theorem value {v : Value} (hv : v.isWellFormed = true) : Pushes [.loadValue v] 1 :=
  load rfl rfl rfl hv

theorem text (s : String) : Pushes [loadText s] 1 :=
  value rfl

theorem heading {h : Heading} (hh : h.namesDistinct = true) : Pushes [loadHeading h] 1 :=
  value hh

theorem slot (slot : Nat) : Pushes (loadSlot slot) 2 := by
  have first : Pushes [.loadAccumulators] 1 := load rfl rfl rfl trivial
  exact first.append (value rfl)

theorem slot? (slot : Option Nat) : Pushes (loadSlot? slot) (loadSlot? slot).length := by
  cases slot with
  | none => exact nil
  | some n => exact Pushes.slot n

/-- A segment whose code leaves one value. -/
theorem segment (hx : Pushes xs 1) {lookup : Heading} (hl : lookup.namesDistinct = true)
    (name : String) (kind : SegmentKind) (accums : Nat) (flags : SegmentFlags) :
    Pushes [segment name kind accums flags lookup xs] 1 := by
  refine load rfl rfl ?_ ⟨rfl, hl, hx.assembled⟩
  rw [Instruction.segment, isBalanced, hx.runs, hx.balanced]
  rfl

/-- A call takes its operands from the stack and leaves one result. -/
theorem callFor (hx : Pushes xs n) (isRelation : Bool) (name : String) {fixed more : Nat}
    (h : fixed + more = n) : Pushes (xs ++ [callFor isRelation name fixed more]) 1 := by
  cases isRelation with
  | false => exact hx.collect h rfl rfl trivial
  | true => exact hx.collect h rfl rfl trivial

end Pushes

end Instruction

end RelQuery
