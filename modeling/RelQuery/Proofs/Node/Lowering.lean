/-
The code of a statement fits the stack machine.

Lowering goes over a tree once, and so does the proof: the code of a
node leaves one value, whatever the tree around it. Each node shape
writes its number of operands by hand; the lemma for the shape adds up
what the code before the call has pushed and compares.

Of the trees only what lowering relies on is asked: further arguments
come after all fixed ones, literals and headings are well formed.
-/
import RelQuery.Proofs.Code.Stack

namespace RelQuery

namespace Node

open Instruction

/-- What lowering relies on at one node: a variadic call has all its
fixed arguments, literals are well formed, and headings name no column
twice. -/
def isSound : Node → Bool
  | .literal value => value.isWellFormed
  | .variadic link args _ => link.arity ≤ args.length
  | .row heading _ | .table heading _ | .project _ heading _ => heading.namesDistinct
  | .transform _ _ keys fields _ _ =>
    (keys ++ fields).all fun s => Heading.namesDistinct s.lookup
  | .restrict _ predicate => Heading.namesDistinct predicate.lookup
  | .order _ keys => keys.all fun s => Heading.namesDistinct s.lookup
  | .code body => Heading.namesDistinct body.lookup
  | _ => true

/-- A component is selected from the row, all other variables are loaded at
once. -/
theorem lowerVariable_pushes (name : String) (source : VariableSource) :
    Pushes (lowerVariable name source) 1 := by
  cases source with
  | catalog => exact .load rfl rfl rfl trivial
  | reference => exact .load rfl rfl rfl trivial
  | field => exact .load rfl rfl rfl trivial
  | parameter => exact .load rfl rfl rfl trivial
  | component =>
      have row : Pushes [.loadLookup] 1 := .load rfl rfl rfl trivial
      exact row.collect rfl rfl rfl trivial

/-- Old and new names are pushed in pairs. -/
theorem lowerPairs_pushes (pairs : List (String × String)) :
    Pushes (lowerPairs pairs) (pairs.length * 2) := by
  induction pairs with
  | nil => exact .nil
  | cons pair pairs ih =>
      have both := (Pushes.text pair.1).append ((Pushes.text pair.2).append ih)
      rw [List.length_cons, show (pairs.length + 1) * 2 = 1 + (1 + pairs.length * 2) by omega]
      exact both

mutual

/-- The code of a node leaves one value. -/
theorem lower_pushes : ∀ (node : Node), (∀ n ∈ node.nodes, n.isSound = true) →
    Pushes node.lower 1
  | .literal value, h => .value (h _ List.mem_cons_self)
  | .variable name source _, _ => lowerVariable_pushes name source
  | .currentRow _, _ => .load rfl rfl rfl trivial
  | .inlined _ value, h => lower_pushes value (List.forall_mem_cons.mp h).2
  | .block bindings body, h => by
      obtain ⟨-, h⟩ := List.forall_mem_cons.mp h
      exact lower_pushes body (List.forall_mem_append.mp h).2
  -- the link of a plain call is named by the call itself, so nothing is loaded
  -- for it
  | .call link args _ slot, h => by
      have hargs := lowerAll_pushes args (List.forall_mem_cons.mp h).2
      rw [lower, ← List.append_assoc]
      exact ((Pushes.slot? slot).append hargs).collect (Nat.add_comm _ _) rfl rfl trivial
  | .variadic link args type, h => by
      obtain ⟨hsound, h⟩ := List.forall_mem_cons.mp h
      have hargs := lowerAll_pushes args h
      -- soundness is needed here: the call counts its fixed operands apart from the
      -- rest
      have hfixed : link.arity ≤ args.length := of_decide_eq_true hsound
      exact hargs.callFor type.isRelation link.name (Nat.add_sub_cancel' hfixed)
  | .function link args _ slot, h => by
      have hargs := lowerAll_pushes args (List.forall_mem_cons.mp h).2
      have hname : Pushes [.loadCatalogRef link.name] 1 := .load rfl rfl rfl trivial
      rw [lower, ← List.append_assoc]
      exact (hname.append ((Pushes.slot? slot).append hargs)).collect
        (Nat.add_assoc _ _ _) rfl rfl trivial
  | .fold op slot arg _, h => by
      have harg := lower_pushes arg (List.forall_mem_cons.mp h).2
      have hall := (Pushes.slot slot).append ((Pushes.text op).append harg)
      exact hall.collect rfl rfl rfl trivial
  | .row heading values, h => by
      obtain ⟨hheading, h⟩ := List.forall_mem_cons.mp h
      have hall := (Pushes.heading hheading).append (lowerAll_pushes values h)
      exact hall.collect rfl rfl rfl trivial
  | .table heading rows, h => by
      obtain ⟨hheading, h⟩ := List.forall_mem_cons.mp h
      have hall := (Pushes.heading hheading).append (lowerAll_pushes rows h)
      exact hall.collect rfl rfl rfl trivial
  | .selector user args, h => by
      have hargs := lowerAll_pushes args (List.forall_mem_cons.mp h).2
      exact ((Pushes.text user.name).append hargs).collect rfl rfl rfl trivial
  | .project base heading _, h => by
      obtain ⟨hheading, h⟩ := List.forall_mem_cons.mp h
      have hall := (lower_pushes base h).append (Pushes.heading hheading)
      rw [lower, List.append_cons]
      exact hall.collect rfl rfl rfl trivial
  | .rename base pairs type, h => by
      have hbase := lower_pushes base (List.forall_mem_cons.mp h).2
      rw [lower, ← List.append_assoc]
      exact (hbase.append (lowerPairs_pushes pairs)).callFor type.isRelation "rename" rfl
  | .transform base kind keys fields _ type, h => by
      obtain ⟨hsound, h⟩ := List.forall_mem_cons.mp h
      obtain ⟨hbase, hsegments⟩ := List.forall_mem_append.mp h
      obtain ⟨hkeys, hfields⟩ := List.forall_mem_append.mp hsegments
      -- keys and fields are segments alike, and the call takes them in this order
      obtain ⟨hkeyLookups, hfieldLookups⟩ :=
        List.forall_mem_append.mp (List.all_eq_true.mp hsound)
      have hall := (lowerSegments_pushes keys hkeys hkeyLookups).append
        (lowerSegments_pushes fields hfields hfieldLookups)
      rw [lower, ← List.append_assoc (lowerSegments keys), ← List.append_assoc]
      exact ((lower_pushes base hbase).append hall).callFor type.isRelation kind.callName rfl
  | .restrict base ⟨name, kind, accums, flags, lookup, body⟩, h => by
      obtain ⟨hlookup, h⟩ := List.forall_mem_cons.mp h
      obtain ⟨hbase, hbody⟩ := List.forall_mem_append.mp h
      have hsegment := (lower_pushes body hbody).segment hlookup name kind accums flags
      rw [lower, List.append_cons]
      exact ((lower_pushes base hbase).append hsegment).collect rfl rfl rfl trivial
  | .order base keys, h => by
      obtain ⟨hlookups, h⟩ := List.forall_mem_cons.mp h
      obtain ⟨hbase, hkeys⟩ := List.forall_mem_append.mp h
      have hall := lowerSegments_pushes keys hkeys (List.all_eq_true.mp hlookups)
      rw [lower, ← List.append_assoc]
      exact ((lower_pushes base hbase).append hall).collect rfl rfl rfl trivial
  | .code ⟨name, kind, accums, flags, lookup, body⟩, h => by
      obtain ⟨hlookup, h⟩ := List.forall_mem_cons.mp h
      exact (lower_pushes body h).segment hlookup name kind accums flags
  | .component base name _, h => by
      have hbase := lower_pushes base (List.forall_mem_cons.mp h).2
      exact hbase.collect rfl rfl rfl trivial
  | .tupleField base name _, h => by
      have hbase := lower_pushes base (List.forall_mem_cons.mp h).2
      exact hbase.collect rfl rfl rfl trivial

/-- The code of nodes leaves one value for each. -/
theorem lowerAll_pushes : ∀ (args : List Node), (∀ n ∈ nodesAll args, n.isSound = true) →
    Pushes (lowerAll args) args.length
  | [], _ => .nil
  | node :: rest, h => by
      obtain ⟨hnode, hrest⟩ := List.forall_mem_append.mp h
      rw [List.length_cons, Nat.add_comm]
      exact (lower_pushes node hnode).append (lowerAll_pushes rest hrest)

/-- The code of segments leaves one value for each. -/
theorem lowerSegments_pushes : ∀ (segments : List Segment),
    (∀ n ∈ segmentNodes segments, n.isSound = true) →
    (∀ s ∈ segments, Heading.namesDistinct s.lookup = true) →
    Pushes (lowerSegments segments) segments.length
  | [], _, _ => .nil
  | ⟨name, kind, accums, flags, lookup, body⟩ :: rest, h, hl => by
      obtain ⟨hbody, hrest⟩ := List.forall_mem_append.mp h
      obtain ⟨hlookup, hl⟩ := List.forall_mem_cons.mp hl
      have hsegment := (lower_pushes body hbody).segment hlookup name kind accums flags
      rw [List.length_cons, Nat.add_comm]
      exact hsegment.append (lowerSegments_pushes rest hrest hl)

end

end Node

-- ======================================================= statements

namespace Statement

open Instruction

/-- What lowering relies on in a statement: at every node of its tree,
and in the headings that its own code holds. -/
structure IsSound (s : Statement) : Prop where
  nodes : ∀ root, s.root? = some root → ∀ n ∈ root.nodes, n.isSound = true
  headings : match s with
    | .define _ link body =>
      DataType.columnsDistinct link.args = true ∧ Heading.namesDistinct body.lookup = true
    | .typeDef user => Heading.namesDistinct user.heading = true
    | _ => True

/-- The code of a statement is a piece that leaves one value, and the
end after it. -/
theorem lower_eq {s : Statement} (hs : s.IsSound) :
    ∃ body, s.lower = body ++ [.finish] ∧ Pushes body 1 := by
  cases s with
  | expression value => exact ⟨value.lower, rfl, Node.lower_pushes value (hs.nodes value rfl)⟩
  | assign name value =>
      have hvalue := Node.lower_pushes value (hs.nodes value rfl)
      have hall := ((Pushes.text name).append hvalue).collect (i := .call "assign" 2)
        rfl rfl rfl trivial
      refine ⟨_, ?_, hall⟩
      simp [lower]
  | define name link body =>
      obtain ⟨hargs, hlookup⟩ := hs.headings
      have hbody := Node.lower_pushes body.body (hs.nodes body.body rfl)
      have hheading := Pushes.heading (Heading.namesDistinct_foldl_insertNew hargs (h := []) rfl)
      have hsegment := hbody.segment hlookup body.name body.kind body.accums body.flags
      have hall := ((Pushes.text name).append (hheading.append hsegment)).collect
        (i := .call "define" 3) rfl rfl rfl trivial
      exact ⟨_, rfl, hall⟩
  | typeDef user =>
      have hall := ((Pushes.text user.name).append (Pushes.heading hs.headings)).collect
        (i := .call "deftype" 2) rfl rfl rfl trivial
      exact ⟨_, rfl, hall⟩

/-- Emitted code is well formed unless a literal holds the leap second
at the end of the last day. It decodes to its end, the only one at any
depth; before it one value is on the stack, with no underflow on the
way, and the same holds of the code of every segment. With such a
literal decoding stops at a time out of range. -/
theorem emit_decodes {s : Statement} {code : List UInt8} (hs : s.IsSound)
    (he : s.emit = .ok code) :
    ((∀ m ∈ allTimes s.lower, m.isLastLeap = false) →
      ∃ body, decodeAll code = .ok (body ++ [.finish]) ∧
        run 0 body = some 1 ∧ allBalanced body = true) ∧
    ((∃ m ∈ allTimes s.lower, m.isLastLeap = true) →
      ∃ offset, decodeAll code = .error (.badTime offset)) := by
  obtain ⟨body, hbody, hpushes⟩ := lower_eq hs
  have hassembled : AllAssembled s.lower := by
    rw [hbody, allAssembled_append]
    exact ⟨hpushes.assembled, trivial, trivial⟩
  -- assembled code ends as its literals can be cut
  have hends := hassembled.ends (Chunk.result_eq_ok.mp he)
  constructor
  · intro hall
    obtain ⟨js, hjs⟩ := Option.isSome_iff_exists.mp (hassembled.isSome_cutAll?.mpr hall)
    rw [hjs] at hends
    -- the end is the last instruction, so what is cut in front of it is the body
    rw [hbody, cutAll?_append] at hjs
    obtain ⟨front, hfront, hlast⟩ := Option.bind_eq_some_iff.mp hjs
    cases hlast
    obtain ⟨hrun, hbalanced⟩ := cutAll?_eq_some hfront
    refine ⟨front, decodeAll_of_ends_some hends, ?_, ?_⟩
    · rw [hrun, hpushes.runs]
    · rw [hbalanced, hpushes.balanced]
  -- a literal that cannot be cut stops the decoding
  · rintro ⟨m, hm, hlast⟩
    have hall : cutAll? s.lower = none := by
      rw [← Option.not_isSome_iff_eq_none, hassembled.isSome_cutAll?]
      intro h
      rw [h m hm] at hlast
      cases hlast
    rw [hall] at hends
    exact decodeAll_of_ends_none hends

/-- Both halves: an assignment of an aggregate, and the leap second at
the end of the last day. -/
theorem emit_decodes_aggregate_and_leap_second :
    let count : Segment := ⟨"n", .fold, 1, .none, [⟨"x", .number⟩],
      .fold "+" 0 (.variable "x" .field .number) .number⟩
    let base : Node := .table [⟨"x", .number⟩] [.row [⟨"x", .number⟩] [.literal (.number .zero)]]
    let s : Statement := .assign "r"
      (.transform base .aggregating [.load "x" .number] [count] 1 (.relation [⟨"n", .number⟩]))
    let t : Statement := .expression (.literal (.time ⟨8210266876799, 1000000000⟩))
    (∃ code body, s.emit = .ok code ∧ decodeAll code = .ok (body ++ [.finish]) ∧
      run 0 body = some 1 ∧ allBalanced body = true) ∧
    (∃ code offset, t.emit = .ok code ∧ decodeAll code = .error (.badTime offset)) := by
  intro count base s t
  constructor
  · have hs : s.IsSound := by
      refine ⟨fun root hroot => ?_, trivial⟩
      cases hroot
      decide
    have he : s.emit = .ok (assembleAll s.lower).bytes := rfl
    obtain ⟨body, hbody⟩ := (emit_decodes hs he).1 (by decide)
    exact ⟨_, body, he, hbody⟩
  · have ht : t.IsSound := by
      refine ⟨fun root hroot => ?_, trivial⟩
      cases hroot
      decide
    have he : t.emit = .ok (assembleAll t.lower).bytes := rfl
    obtain ⟨offset, hoffset⟩ :=
      (emit_decodes ht he).2 ⟨⟨8210266876799, 1000000000⟩, List.mem_cons_self, rfl⟩
    exact ⟨_, offset, he, hoffset⟩

end Statement

end RelQuery
