/-
Building makes coherent types out of coherent ones.

Coherence is a standard that building keeps to. So over a coherent
catalog what a statement enters is coherent as well. Of a type
definition that is more than what its columns are: its heading is the
supertype's, with its own components after it.
-/
import RelQuery.Proofs.Build.Standard
import RelQuery.Proofs.Type.Inheritance

namespace RelQuery

-- ========================================================= catalogs

/-- All types in the catalog are coherent, and what is entered as a
user type is one. -/
structure Catalog.IsCoherent (c : Catalog) : Prop where
  entries : ∀ symbol ∈ c.entries, symbol.IsCoherent
  users : ∀ symbol ∈ c.entries, symbol.kind = .userType → ∃ user, symbol.type = .user user

/-- A catalog of coherent types meets the standard. -/
theorem Catalog.IsCoherent.meets {c : Catalog} (h : c.IsCoherent) : c.Meets .coherent := by
  intro symbol hsymbol
  obtain ⟨htype, hlinks⟩ := Symbol.isCoherent_iff.mp (h.entries symbol hsymbol)
  exact ⟨htype, fun link hlink => (hlinks link hlink).returns⟩

/-- What a statement would enter has coherent types and a name that no
builtin has. A variable is given a value of the type that it has. -/
def Catalog.Admits (c : Catalog) : Statement → Prop
  | .expression _ => True
  | .assign name value => value.dataType.IsCoherent ∧ Builtin.find? name = none ∧
    ∀ symbol ∈ c.find? name, symbol.kind = .catalog ∧ symbol.type.same value.dataType = true
  | .define name link _ => link.IsCoherent ∧ link.name = name ∧ Builtin.find? name = none
  | .typeDef user => (DataType.user user).IsCoherent ∧ Builtin.find? user.name = none

namespace Build

open Node (Everywhere)

variable {catalog : Catalog}

-- ======================================================= statements

/-- A variable that exists is found to have the type of the value before
it is assigned to. -/
theorem assign_admits (name : String) {value : Node}
    (hvalue : value.Everywhere (Node.Meets .coherent)) :
    Upholds .coherent (assign catalog name value) catalog.Admits := by
  have hcoherent : value.dataType.IsCoherent := hvalue.allows_dataType
  unfold assign
  split
  · exact .fail _
  · rename_i hbuiltin
    have hname : Builtin.find? name = none := by simpa using hbuiltin
    split
    · rename_i hfind
      refine .pure ⟨hcoherent, hname, fun symbol hsymbol => ?_⟩
      rw [hfind] at hsymbol
      cases hsymbol
    · rename_i existing hfind
      split
      · rename_i hkind
        split
        · rename_i htype
          refine .pure ⟨hcoherent, hname, fun symbol hsymbol => ?_⟩
          rw [hfind] at hsymbol
          cases hsymbol
          exact ⟨hkind, htype⟩
        · exact .fail _
      · exact .fail _

/-- A function enters coherent types under a name that is free. -/
theorem define_admits {name : String} {params : Heading} {returns : Option DataType} {body : Node}
    (hname : Builtin.find? name = none) (hparams : params.IsCoherent)
    (hreturns : ∀ t ∈ returns, t.IsCoherent)
    (hbody : body.Everywhere (Node.Meets .coherent)) :
    Upholds .coherent (define name params returns body) catalog.Admits := by
  refine (define_upholds name hreturns hbody).mono ?_
  rintro _ ⟨link, segment, rfl, hsame, rfl, hvariadic, hreturns, -⟩
  refine ⟨List.forall_mem_cons.mpr ⟨hreturns, List.forall_mem_append.mpr ⟨?_, ?_⟩⟩, hsame, hname⟩
  · exact List.forall_mem_map.mpr hparams.types
  · rw [hvariadic]
    exact fun _ h => absurd h List.not_mem_nil

/-- A type has the columns of its supertype, which is a user type. -/
theorem inherited_isCoherent (hcatalog : catalog.IsCoherent) {supertype : Option String}
    {heading : Heading} {parent : Option DataType}
    (h : inherited catalog supertype = .ok (heading, parent)) :
    ∀ t ∈ parent, ∃ super, t = .user super ∧ super.heading = heading := by
  obtain ⟨rfl, rfl⟩ | ⟨name, symbol, hfind, hkind, rfl, rfl⟩ := inherited_eq_ok h
  · intro t ht
    cases ht
  · obtain ⟨super, hsuper⟩ := hcatalog.users symbol (List.mem_of_find?_eq_some hfind) hkind
    rw [hsuper]
    rintro _ ⟨⟩
    exact ⟨super, rfl, rfl⟩

/-- A type enters its own columns behind those that it inherits. -/
theorem typeDef_admits (hcatalog : catalog.IsCoherent) (name : String)
    (supertype : Option String) {components : Heading} (hcomponents : components.IsCoherent) :
    Upholds .coherent (typeDef catalog name supertype components) catalog.Admits := by
  refine (typeDef_upholds hcatalog.meets name supertype hcomponents).mono ?_
  rintro _ ⟨heading, parent, output, rfl, hname, hinherited, hbegins, houtput, hparent⟩
  refine ⟨DataType.isCoherent_user.mpr ⟨houtput, fun t ht => ?_, hparent⟩, hname⟩
  obtain ⟨super, rfl, hsame⟩ := inherited_isCoherent hcatalog hinherited t ht
  exact ⟨super, rfl, hsame ▸ hbegins⟩

/-- A statement built over a coherent catalog can be entered into it. -/
theorem statement_admits (hcatalog : catalog.IsCoherent) (sentence : Sentence) :
    Upholds .coherent (statement catalog sentence) catalog.Admits :=
  statement_upholds hcatalog.meets (fun _ _ => trivial) (fun name _ hn => assign_admits name hn)
    (fun _ _ _ _ hname hparams hreturns hbody => define_admits hname hparams hreturns hbody)
    (fun name supertype _ hcomponents => typeDef_admits hcatalog name supertype hcomponents)
    (sentence.meets_of_times fun _ => trivial)

end Build

end RelQuery
