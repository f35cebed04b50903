/-
What the entries of a catalog are.

An entry has coherent types and a name that no builtin has. A function
has a well-formed chain of overloads, a type is a user type, and nothing
else can be called (`Symbol.IsEntry`). Building a statement has checked
what its entry would be on its own; joining the chain that is there is
checked by the catalog. So entering a statement keeps this, and it holds
at every point of a session, of the entries and of those saved.

Two things follow. The chains of all functions stay well formed, however
definitions, redefinitions, refusals and loads are mixed. And a subtype
can stand in for its supertypes wherever a type has been copied to: into
a variable, a signature, another type or a saved catalog.
-/
import RelQuery.Proofs.Build.Coherence
import RelQuery.Proofs.Call.Overloads
import RelQuery.Proofs.Session.Storage

namespace RelQuery

/-- What an entry of the catalog is. -/
structure Symbol.IsEntry (s : Symbol) : Prop where
  coherent : s.IsCoherent
  free : Builtin.find? s.name = none
  user : s.kind = .userType → ∃ user, s.type = .user user
  function : s.kind = .deferred → Overloads.IsWellFormed s.links s.name s.type
  plain : s.kind ≠ .deferred → s.calls = none

theorem Symbol.IsEntry.atLevel {s : Symbol} (h : s.IsEntry) (level : Nat) :
    (s.atLevel level).IsEntry :=
  ⟨h.coherent, h.free, h.user, h.function, h.plain⟩

namespace Catalog

variable {c c' : Catalog} {st : Statement}

theorem find?_name {name : String} {s : Symbol} (h : c.find? name = some s) : s.name = name := by
  have hfound := List.find?_some h
  exact beq_iff_eq.mp hfound

theorem isCoherent_of_isEntry (hc : ∀ symbol ∈ c.entries, symbol.IsEntry) : c.IsCoherent :=
  ⟨fun symbol h => (hc symbol h).coherent, fun symbol h => (hc symbol h).user⟩

/-- A statement makes an entry out of entries. -/
theorem Enters.isEntry {symbol : Symbol} (h : c.Enters st symbol)
    (hc : ∀ symbol ∈ c.entries, symbol.IsEntry) (hst : c.Admits st) : symbol.IsEntry := by
  cases h with
  -- a variable has no links, and its type is that of its value
  | assign name value =>
      obtain ⟨hvalue, hname, -⟩ := hst
      refine ⟨Symbol.isCoherent_iff.mpr ⟨hvalue, ?_⟩, hname, ?_, ?_, fun _ => rfl⟩
      · exact fun _ h => absurd h List.not_mem_nil
      · exact fun h => nomatch h
      · exact fun h => nomatch h
  -- a function has one link, a chain by itself
  | define name link body =>
      obtain ⟨hlink, rfl, hname⟩ := hst
      refine ⟨Symbol.isCoherent_iff.mpr ⟨hlink.returns, ?_⟩, hname, ?_, ?_, ?_⟩
      · exact List.forall_mem_singleton.mpr hlink
      · exact fun h => nomatch h
      · exact fun _ => Overloads.isWellFormed_singleton hlink
      · exact fun h => absurd rfl h
  -- an overload joins a chain that is well-formed, and stays so with it
  | overload name link body hfind hkind hchain =>
      rename_i old chain
      obtain ⟨hlink, rfl, -⟩ := hst
      have hold := hc old (List.mem_of_find?_eq_some hfind)
      obtain ⟨htype, hlinks⟩ := Symbol.isCoherent_iff.mp hold.coherent
      have hadd := (hold.function hkind).add hlinks hlink (find?_name hfind).symm hchain
      refine ⟨Symbol.isCoherent_iff.mpr ⟨htype, fun s hs => ?_⟩, hold.free, hold.user,
        fun _ => hadd, fun h => absurd hkind h⟩
      rcases Overloads.mem_add hchain hs with rfl | hs
      · exact hlink
      · exact hlinks s hs
  -- a type stands for itself
  | typeDef user =>
      obtain ⟨huser, hname⟩ := hst
      refine ⟨Symbol.isCoherent_iff.mpr ⟨huser, ?_⟩, hname, fun _ => ⟨user, rfl⟩, ?_, fun _ => rfl⟩
      · exact fun _ h => absurd h List.not_mem_nil
      · exact fun h => nomatch h

/-- A statement that was built with nothing open is admitted. -/
theorem admits_of_statement (hc : ∀ symbol ∈ c.entries, symbol.IsEntry) {sentence : Sentence}
    {w : Workspace} (h : Build.statement c sentence { context := .fresh } = .ok st w) :
    c.Admits st :=
  have hadmits := Build.statement_admits (isCoherent_of_isEntry hc) sentence
  (hadmits _ st w Workspace.meets_fresh h).2

/-- The catalog holds entries and nothing else. -/
theorem isLasting_isEntry : IsLasting fun entries => ∀ symbol ∈ entries, symbol.IsEntry where
  nil := fun _ h => absurd h List.not_mem_nil
  register := by
    intro c c' sentence st w hc hbuild hregister symbol hsymbol
    obtain hold | ⟨entered, henters, rfl⟩ := mem_register hregister hsymbol
    · exact hc symbol hold
    · exact (henters.isEntry hc (admits_of_statement hc hbuild)).atLevel 0

/-- The entries, and those saved. -/
def kept (c : Catalog) : List Symbol :=
  c.entries ++ c.saved.getD []

/-- The types in the entries and in those saved, at any depth. -/
def reach (c : Catalog) : List DataType :=
  c.kept.flatMap fun symbol => symbol.types.flatMap DataType.parts

end Catalog

namespace Session

/-- At every point of a session, all that is kept are entries. -/
theorem within_isEntry (options : Options) (evaluator : Option Evaluator) (calls : List Call)
    (text : List Char) (done : List Piece) :
    ∀ symbol ∈ (({ options, evaluator } : Session).within calls text done).catalog.kept,
      symbol.IsEntry := by
  obtain ⟨-, hentries, hsaved⟩ :=
    within_stores Catalog.isLasting_isEntry options evaluator calls text done
  refine List.forall_mem_append.mpr ⟨hentries, ?_⟩
  generalize (({ options, evaluator } : Session).within calls text done).catalog.saved = saved
    at hsaved
  cases saved with
  | none => exact fun _ h => absurd h List.not_mem_nil
  | some entries => exact hsaved entries rfl

-- =========================================================== chains

/-- Chains of overloads stay well formed. At every point of a session
that began with no entries, of the entries and of those saved: none has
the name of a builtin; those that can be called are the functions; and
the links of a function, of which there is one at least, have its name
and return its type, take as many arguments, and no two take arguments
of the same types. -/
theorem chains_stay_well_formed (options : Options) (evaluator : Option Evaluator)
    (calls : List Call) (text : List Char) (done : List Piece) {s : Session}
    (hs : s = ({ options, evaluator } : Session).within calls text done) :
    ∀ symbol ∈ s.catalog.kept, Builtin.find? symbol.name = none ∧
      (symbol.kind = .deferred ↔ symbol.calls.isSome = true) ∧
      (symbol.kind = .deferred → Overloads.IsWellFormed symbol.links symbol.name symbol.type) := by
  intro symbol hsymbol
  rw [hs] at hsymbol
  have hentry := within_isEntry options evaluator calls text done symbol hsymbol
  refine ⟨hentry.free, ⟨fun hkind => ?_, fun hcalls => ?_⟩, hentry.function⟩
  -- a function has a chain of one link at least
  · have hnonempty := (hentry.function hkind).nonempty
    cases hcalls : symbol.calls with
    | some chain => rfl
    | none =>
        rw [Symbol.links, hcalls] at hnonempty
        exact absurd rfl hnonempty
  -- what is no function has no chain
  · by_cases hkind : symbol.kind = .deferred
    · exact hkind
    · rw [hentry.plain hkind] at hcalls
      cases hcalls

/-- A function with two links, of which the first is defined again
with its columns in another order, and a variable that is refused its
name. Then a third link, which loading takes away. -/
def redefined : List Char × List Char :=
  ("def f(p: tup{x: number, y: text}) => 1; def f(p: number) => 2; ".toList ++
      "def f(p: tup{y: text, x: number}) => 3; f := 4\n#catalog save".toList,
    "def f(p: text) => 5\n#catalog load".toList)

/-- The session after both texts. -/
def afterRedefined : Session :=
  ({} : Session).within [.process redefined.1] redefined.2 (Piece.split redefined.2)

/-- There are two links after all that, and they are told apart. -/
theorem chains_stay_well_formed_redefined :
    ∃ symbol ∈ afterRedefined.catalog.kept, symbol.links.length = 2 ∧ symbol.kind = .deferred ∧
      Builtin.find? symbol.name = none ∧
      Overloads.IsWellFormed symbol.links symbol.name symbol.type := by
  have hrun : (afterRedefined.catalog.kept.any fun symbol =>
      decide (symbol.links.length = 2 ∧ symbol.kind = .deferred)) = true := by decide +kernel
  obtain ⟨symbol, hsymbol, hcheck⟩ := List.any_eq_true.mp hrun
  obtain ⟨hlength, hkind⟩ := of_decide_eq_true hcheck
  obtain ⟨hfree, -, hfunction⟩ := chains_stay_well_formed {} none [.process redefined.1]
    redefined.2 (Piece.split redefined.2) (rfl : afterRedefined = _) symbol hsymbol
  exact ⟨symbol, hsymbol, hlength, hkind, hfree, hfunction hkind⟩

-- ========================================================= subtypes

/-- Subtypes can stand in for their supertypes. At every point of a
session that began with no entries, whatever type occurs at any depth in
an entry or in one saved: the supertype of a user type is a user type,
and its columns come first in the subtype, the same and in the same
order. So among these types every column of a supertype is found in each
of its subtypes, with an equal type. -/
theorem subtypes_stand_in_for_supertypes (options : Options) (evaluator : Option Evaluator)
    (calls : List Call) (text : List Char) (done : List Piece) {s : Session}
    (hs : s = ({ options, evaluator } : Session).within calls text done) :
    (∀ user : UserType, .user user ∈ s.catalog.reach → user.Inherits) ∧
    ∀ declared ∈ s.catalog.reach, ∀ actual ∈ s.catalog.reach,
      DataType.isSubtypeOf declared actual = true →
        ∀ c ∈ declared.heading?.getD [], ∃ d,
          Heading.get? (actual.heading?.getD []) c.name = some d ∧ c.type.same d.type = true := by
  -- a type in reach is part of one that an entry states, so it is coherent
  have hreach : ∀ t ∈ s.catalog.reach, t.IsCoherent := by
    intro t ht
    obtain ⟨symbol, hsymbol, ht⟩ := List.mem_flatMap.mp ht
    obtain ⟨whole, hwhole, ht⟩ := List.mem_flatMap.mp ht
    rw [hs] at hsymbol
    have hentry := within_isEntry options evaluator calls text done symbol hsymbol
    exact (hentry.coherent whole hwhole).part ht
  refine ⟨fun user huser => (DataType.isCoherent_user.mp (hreach _ huser)).2.1, ?_⟩
  intro declared _ actual hactual hsub
  exact (hreach actual hactual).get?_of_isSubtypeOf hsub

/-- A chain of three types, and a variable with a column of the last. -/
def chained : List Char :=
  "type shape(label: number); type disc: shape(r: number); type ring: disc(hole: number); ".toList
    ++ "r := {{d := ring(7, 1, 2)}}\n#catalog save\n#catalog load".toList

/-- The session after that text. -/
def afterChained : Session :=
  ({} : Session).within [.process chained] [] []

/-- The last type, with three columns, has the one of the first. -/
theorem subtypes_stand_in_for_supertypes_chained :
    ∃ declared ∈ afterChained.catalog.reach, ∃ actual ∈ afterChained.catalog.reach,
      (declared.heading?.getD []).length = 1 ∧ (actual.heading?.getD []).length = 3 ∧
      DataType.isSubtypeOf declared actual = true ∧
      ∀ c ∈ declared.heading?.getD [], ∃ d,
        Heading.get? (actual.heading?.getD []) c.name = some d ∧ c.type.same d.type = true := by
  have hrun : (afterChained.catalog.reach.any fun declared =>
      afterChained.catalog.reach.any fun actual => decide
        ((declared.heading?.getD []).length = 1 ∧ (actual.heading?.getD []).length = 3 ∧
          DataType.isSubtypeOf declared actual = true)) = true := by decide +kernel
  obtain ⟨declared, hdeclared, hrest⟩ := List.any_eq_true.mp hrun
  obtain ⟨actual, hactual, hcheck⟩ := List.any_eq_true.mp hrest
  obtain ⟨hone, hthree, hsub⟩ := of_decide_eq_true hcheck
  obtain ⟨-, hcolumns⟩ := subtypes_stand_in_for_supertypes {} none [.process chained] [] []
    (rfl : afterChained = _)
  exact ⟨declared, hdeclared, actual, hactual, hone, hthree, hsub,
    hcolumns declared hdeclared actual hactual hsub⟩

end Session

end RelQuery
