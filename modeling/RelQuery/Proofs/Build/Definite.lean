/-
Building leaves no placeholder behind.

Types without placeholders are a standard that building keeps to, so
what is built over a catalog without placeholders has none: not in the
tree of a statement, nor in what it would enter into the catalog.
-/
import RelQuery.Proofs.Build.Standard
import RelQuery.Proofs.Node.Definite

namespace RelQuery

/-- No placeholder occurs in the catalog. -/
def Catalog.IsDefinite (c : Catalog) : Prop :=
  ∀ symbol ∈ c.entries, symbol.IsDefinite

theorem Catalog.IsDefinite.meets {c : Catalog} (h : c.IsDefinite) : c.Meets .definite :=
  fun symbol hsymbol => ⟨(h symbol hsymbol).type, fun link hlink =>
    ((h symbol hsymbol).links link hlink).returns⟩

namespace Build

variable {catalog : Catalog}

/-- An assignment enters the type of its value. -/
theorem assign_definite (name : String) {value : Node} (hvalue : value.Everywhere Node.IsDefinite) :
    Upholds .definite (assign catalog name value) Statement.IsDefinite := by
  refine (assign_looks catalog name value).carries.mono ?_
  rintro _ rfl
  exact hvalue

/-- A definition enters what was declared and what the body returns. -/
theorem define_definite (name : String) {params : Heading} {returns : Option DataType} {body : Node}
    (hparams : params.IsDefinite) (hreturns : ∀ t ∈ returns, t.isDefinite = true)
    (hbody : body.Everywhere Node.IsDefinite) :
    Upholds .definite (define name params returns body) Statement.IsDefinite := by
  refine (define_upholds name hreturns hbody).mono ?_
  rintro _ ⟨link, segment, rfl, -, rfl, hvariadic, hreturns, hsegment⟩
  refine ⟨⟨hreturns, hparams, ?_⟩, hsegment⟩
  rw [hvariadic]
  exact fun _ h => nomatch h

/-- A type is put together from named ones. -/
theorem typeDef_definite (hcatalog : catalog.IsDefinite) (name : String)
    (supertype : Option String) {components : Heading} (hcomponents : components.IsDefinite) :
    Upholds .definite (typeDef catalog name supertype components) Statement.IsDefinite := by
  refine (typeDef_upholds hcatalog.meets name supertype hcomponents).mono ?_
  rintro _ ⟨heading, parent, output, rfl, -, -, -, houtput, hparent⟩
  exact DataType.isDefinite_user.mpr ⟨houtput, hparent⟩

/-- A statement built over a catalog without placeholders has none. -/
theorem statement_definite (hcatalog : catalog.IsDefinite) (sentence : Sentence) :
    Upholds .definite (statement catalog sentence) Statement.IsDefinite :=
  statement_upholds hcatalog.meets (fun _ hn => hn) (fun name _ hn => assign_definite name hn)
    (fun name _ _ _ _ hparams hreturns hbody => define_definite name hparams hreturns hbody)
    (fun name supertype _ hcomponents => typeDef_definite hcatalog name supertype hcomponents)
    (sentence.meets_of_times fun _ => trivial)

end Build

end RelQuery
