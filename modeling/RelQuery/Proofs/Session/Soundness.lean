/-
What is prepared can be made into code, and the code taken apart.

The theory of code speaks of sound statements (`Statement.IsSound`):
every call with further arguments has its fixed ones, literals are well
formed, and no heading names a column twice. Three stages see to that.
Reading refuses a time that is no moment. Building keeps to a standard:
a call is counted before its node is made, and a heading gets its
columns one by one, each name once. And the catalog, which types are
taken from, holds coherent types at every point of a session.

So a statement that was prepared at some point of a session is sound,
and what is shown of the code of sound statements is true of all code
that a session puts out: such codes, one after another in one file, are
taken apart again, whatever sessions they come from.
-/
import RelQuery.Proofs.Code.Delimiting
import RelQuery.Proofs.Grammar.Opening
import RelQuery.Proofs.Session.Entries

namespace RelQuery

-- ========================================================= standard

/-- Types are coherent, and a time is a moment in range. -/
def Standard.sound : Standard :=
  { Standard.coherent with AllowsTime := fun moment => moment.isValid = true }

/-- The heading of a coherent type names no column twice, and neither
does one inside it. -/
theorem Heading.IsCoherent.namesDistinct {h : Heading} (hh : h.IsCoherent) :
    h.namesDistinct = true :=
  (DataType.isCoherent_tuple.mpr hh).namesDistinct

theorem Catalog.IsCoherent.meets_sound {c : Catalog} (h : c.IsCoherent) : c.Meets .sound :=
  fun symbol hsymbol => ⟨(h.meets symbol hsymbol).type, (h.meets symbol hsymbol).returns⟩

/-- A time that a text reads as is a moment in range. -/
theorem Sentence.meets_sound {text : List Char} {s : Sentence} (h : Sentence.read text = .ok s) :
    s.Meets .sound := by
  intro e he x hx
  have hopens := (opens_of_read h).expression e he x hx
  cases x with
  | time mark moment =>
      obtain ⟨-, quotation, hread⟩ := hopens
      exact Moment.isValid_of_read? hread
  | _ => trivial

-- ============================================================ trees

namespace Node

/-- A node that meets the standard is one that lowering can rely on. -/
theorem Meets.isSound {n : Node} (h : n.Meets .sound) : n.isSound = true := by
  have hheading (heading : Heading) (hmem : heading ∈ n.headings) : heading.namesDistinct = true :=
    Heading.IsCoherent.namesDistinct (h.headings heading hmem)
  have hlookup (s : Segment) (hs : s.lookup ∈ n.headings) :
      Heading.namesDistinct s.lookup = true := hheading s.lookup hs
  cases n with
  | literal value =>
      have hscalar := h.literal value rfl
      cases value with
      | time moment => exact h.time moment rfl
      | bool _ | number _ | text _ => rfl
      | _ => cases hscalar
  | variadic link args type => exact decide_eq_true h.fixed
  | row heading _ | table heading _ | project _ heading _ =>
      exact hheading heading List.mem_cons_self
  | transform base kind keys fields accums type =>
      exact List.all_eq_true.mpr fun s hs => hlookup s (List.mem_map_of_mem hs)
  | restrict base predicate => exact hlookup predicate List.mem_cons_self
  | order base keys => exact List.all_eq_true.mpr fun s hs => hlookup s (List.mem_map_of_mem hs)
  | code body => exact hlookup body List.mem_cons_self
  | _ => rfl

/-- The tree of a statement, if it meets the standard, is sound at every
node. -/
theorem Everywhere.isSound {st : Statement} {root : Node} (h : root.Everywhere (Meets .sound))
    (hroot : st.root? = some root) : ∀ r, st.root? = some r → ∀ n ∈ r.nodes, n.isSound = true := by
  intro r hr n hn
  rw [hroot] at hr
  cases hr
  exact (h n hn).isSound

end Node

-- ======================================================= statements

namespace Build

variable {catalog : Catalog}

/-- The heading of a definition has the columns of its parameters. -/
theorem define_isSound {name : String} {params : Heading} {returns : Option DataType} {body : Node}
    (hparams : params.IsCoherent) (hreturns : ∀ t ∈ returns, t.IsCoherent)
    (hbody : body.Everywhere (Node.Meets .sound)) :
    Upholds .sound (define name params returns body) Statement.IsSound := by
  refine (define_upholds name hreturns hbody).mono ?_
  rintro _ ⟨link, segment, rfl, -, rfl, -, -, hsegment⟩
  have hdistinct := hparams.namesDistinct
  rw [Heading.namesDistinct, Bool.and_eq_true] at hdistinct
  exact ⟨hsegment.body.isSound rfl, hdistinct.2, Heading.IsCoherent.namesDistinct hsegment.lookup⟩

/-- A type definition is sound by its heading alone. -/
theorem typeDef_isSound (hcatalog : catalog.IsCoherent) (name : String) (supertype : Option String)
    {components : Heading} (hcomponents : components.IsCoherent) :
    Upholds .sound (typeDef catalog name supertype components) Statement.IsSound := by
  refine (typeDef_upholds hcatalog.meets_sound name supertype hcomponents).mono ?_
  rintro _ ⟨heading, parent, output, rfl, -, -, -, houtput, -⟩
  exact ⟨nofun, Heading.IsCoherent.namesDistinct houtput⟩

/-- A sentence with times in range, built over a coherent catalog, gives
a statement that lowering can rely on. -/
theorem statement_isSound (hcatalog : catalog.IsCoherent) {sentence : Sentence}
    (hsentence : sentence.Meets .sound) :
    Upholds .sound (statement catalog sentence) Statement.IsSound := by
  have hassign (name : String) (n : Node) (hn : n.Everywhere (Node.Meets .sound)) :
      Upholds .sound (assign catalog name n) Statement.IsSound := by
    refine (assign_looks catalog name n).carries.mono ?_
    rintro _ rfl
    exact ⟨hn.isSound rfl, trivial⟩
  exact statement_upholds hcatalog.meets_sound (fun n hn => ⟨hn.isSound rfl, trivial⟩) hassign
    (fun _ _ _ _ _ hparams hreturns hbody => define_isSound hparams hreturns hbody)
    (fun name supertype _ hcomponents => typeDef_isSound hcatalog name supertype hcomponents)
    hsentence

end Build

-- ============================================================ files

namespace Session

open SessionStep Instruction

/-- The statement was prepared, with this code, at some point of a
session that began with no entries. -/
def Prepares (st : Statement) (code : List UInt8) : Prop :=
  ∃ (options : Options) (evaluator : Option Evaluator) (calls : List Call) (text : List Char)
    (done : List Piece) (own : List Char) (offset : Nat) (source : List Char) (context : Context),
    let s := ({ options, evaluator } : Session).within calls text done
    prepare s.catalog s.context own offset source = (.ok (st, code), context)

/-- What a session prepares is sound. -/
theorem Prepares.emits {st : Statement} {code : List UInt8} (h : Prepares st code) :
    st.Emits code := by
  obtain ⟨options, evaluator, calls, text, done, own, offset, source, context, hprepare⟩ := h
  obtain ⟨hcontext, hentries, -⟩ :=
    within_stores Catalog.isLasting_isEntry options evaluator calls text done
  obtain ⟨sentence, w, hread, hbuild, hemit⟩ := prepare_eq_ok hprepare
  rw [context_eq_fresh hcontext hprepare] at hbuild
  have hsound := Build.statement_isSound (Catalog.isCoherent_of_isEntry hentries)
    (Sentence.meets_sound hread)
  exact ⟨(hsound _ st w Workspace.meets_fresh hbuild).2, hemit⟩

/-- A file of what sessions have prepared. It decodes to the
instructions of all its statements, and each of them on its own to its
own, unless one holds the leap second at the end of the last day: then
decoding stops at a time out of range. -/
theorem prepared_file_decodes {statements : List Statement} {codes : List (List UInt8)}
    (h : List.Forall₂ Prepares statements codes) :
    ((∀ st ∈ statements, ∀ m ∈ allTimes st.lower, m.isLastLeap = false) →
      ∃ outs, List.Forall₂ (fun code out => decodeAll code = .ok out) codes outs ∧
        decodeAll codes.flatten = .ok outs.flatten) ∧
    ((∃ st ∈ statements, ∃ m ∈ allTimes st.lower, m.isLastLeap = true) →
      ∃ offset, decodeAll codes.flatten = .error (.badTime offset)) := by
  have hemits : List.Forall₂ Statement.Emits statements codes := h.imp fun _ _ => Prepares.emits
  refine ⟨fun hleap => ?_, Statement.emits_stop hemits⟩
  obtain ⟨outs, houts⟩ := Statement.emits_decode hemits hleap
  exact ⟨outs, houts, decodeAll_flatten houts⟩

end Session

end RelQuery
