/-
Entries keep what they mean.

What was compiled against an entry stays right as long as the entry
keeps its kind, its type, and for a function every list of arguments
that it takes (`Symbol.Keeps`). Three different places see to that. A
value is compared with the variable that it is assigned to when the
assignment is built. A definition is compared with the function of its
name when it is entered. A type is only entered under a name that is
free. What fails changes no entry.

So each step of a session keeps what the entries mean, and since that is
transitive, any point of a session keeps what they meant at any point
before (`course`). Going back to saved entries is the one exception.
-/
import RelQuery.Proofs.Session.Entries
import Mathlib.Data.List.Chain

namespace RelQuery

-- ========================================================== meaning

/-- The second symbol can be used for the first. -/
structure Symbol.Keeps (s t : Symbol) : Prop where
  kind : t.kind = s.kind
  type : s.type.same t.type = true
  user : s.kind = .userType → t.type = s.type
  function : s.kind = .deferred → s.links ≠ []
  arity : ∀ link ∈ s.links, ∀ other ∈ t.links, link.arity = other.arity
  returns : ∀ link ∈ s.links, ∀ other ∈ t.links, link.returns.same other.returns = true
  takes : ∀ link ∈ s.links, ∃ other ∈ t.links, link.sameArguments other = true

namespace Symbol

variable {s t r : Symbol}

/-- What keeps its meaning twice keeps it. -/
theorem Keeps.trans (hst : s.Keeps t) (htr : t.Keeps r) : s.Keeps r where
  kind := htr.kind.trans hst.kind
  type := DataType.same_trans hst.type htr.type
  user := fun hkind => (htr.user (hst.kind.trans hkind)).trans (hst.user hkind)
  function := hst.function
  arity := by
    intro link hlink other hother
    obtain ⟨between, hbetween, -⟩ := hst.takes link hlink
    exact (hst.arity link hlink between hbetween).trans (htr.arity between hbetween other hother)
  returns := by
    intro link hlink other hother
    obtain ⟨between, hbetween, -⟩ := hst.takes link hlink
    exact DataType.same_trans (hst.returns link hlink between hbetween)
      (htr.returns between hbetween other hother)
  takes := by
    intro link hlink
    obtain ⟨between, hbetween, hsame⟩ := hst.takes link hlink
    obtain ⟨other, hother, hsame'⟩ := htr.takes between hbetween
    exact ⟨other, hother, Signature.sameArguments_trans hsame hsame'⟩

/-- Only a function has links. -/
theorem IsEntry.kind_of_mem (hs : s.IsEntry) {link : Signature} (hlink : link ∈ s.links) :
    s.kind = .deferred := by
  by_cases hkind : s.kind = .deferred
  · exact hkind
  · rw [links, hs.plain hkind] at hlink
    exact absurd hlink List.not_mem_nil

/-- An entry keeps its own meaning. -/
theorem IsEntry.keeps (hs : s.IsEntry) : s.Keeps s where
  kind := rfl
  type := DataType.same_refl (isCoherent_iff.mp hs.coherent).1.namesDistinct
  user := fun _ => rfl
  function := fun hkind => (hs.function hkind).nonempty
  arity := fun link hlink => (hs.function (hs.kind_of_mem hlink)).arity link hlink
  returns := fun link hlink => (hs.function (hs.kind_of_mem hlink)).returns link hlink
  takes := by
    intro link hlink
    have hcoherent := (isCoherent_iff.mp hs.coherent).2 link hlink
    exact ⟨link, hlink, Signature.sameArguments_refl hcoherent.argumentsDistinct⟩

/-- A function that another definition has joined. -/
theorem IsEntry.keeps_add (hs : s.IsEntry) (hkind : s.kind = .deferred) {link : Signature}
    {chain : Overloads} (hchain : Overloads.add s.links link = .ok chain) :
    s.Keeps { s with calls := some chain } := by
  obtain ⟨htype, hlinks⟩ := isCoherent_iff.mp hs.coherent
  have hagrees := (hs.function hkind).agrees hlinks hchain
  have hmem (other : Signature) (hother : other ∈ chain) : other = link ∨ other ∈ s.links :=
    Overloads.mem_add hchain hother
  refine ⟨rfl, hs.keeps.type, fun _ => rfl, hs.keeps.function, ?_, ?_, ?_⟩
  · intro first hfirst other hother
    rcases hmem other hother with rfl | hother
    · exact (hagrees first hfirst).1
    · exact hs.keeps.arity first hfirst other hother
  · intro first hfirst other hother
    rcases hmem other hother with rfl | hother
    · exact (hagrees first hfirst).2.1
    · exact hs.keeps.returns first hfirst other hother
  · intro first hfirst
    have hput := (Overloads.add_eq_ok hchain).2
    show ∃ other ∈ chain, first.sameArguments other = true
    rw [hput]
    exact Overloads.exists_put (fun s hs => (hlinks s hs).argumentsDistinct) hfirst

end Symbol

namespace Catalog

variable {c c' c'' : Catalog} {st : Statement}

/-- Every name of the first catalog can be used the same way in the
second. -/
def Keeps (c c' : Catalog) : Prop :=
  ∀ name s, c.find? name = some s → ∃ t, c'.find? name = some t ∧ s.Keeps t

/-- A catalog that keeps its entries twice keeps them. -/
theorem Keeps.trans (h : c.Keeps c') (h' : c'.Keeps c'') : c.Keeps c'' := by
  intro name s hs
  obtain ⟨t, ht, hst⟩ := h name s hs
  obtain ⟨r, hr, htr⟩ := h' name t ht
  exact ⟨r, hr, hst.trans htr⟩

/-- A catalog of the same entries keeps them. -/
theorem keeps_of_entries (hc : ∀ symbol ∈ c.entries, symbol.IsEntry)
    (h : c'.entries = c.entries) : c.Keeps c' := by
  intro name s hs
  refine ⟨s, ?_, (hc s (List.mem_of_find?_eq_some hs)).keeps⟩
  rw [find?, h]
  exact hs

/-- After a symbol was put in, its name finds it and other names find what
they did. -/
theorem find?_put (symbol : Symbol) (entries : List Symbol) (name : String) :
    (put symbol entries).find? (·.name == name) =
      if symbol.name = name then some symbol else entries.find? (·.name == name) := by
  induction entries with
  | nil => by_cases h : symbol.name = name <;> simp [put, h]
  | cons first rest ih =>
      rw [put]
      by_cases hfirst : first.name = symbol.name
      · by_cases h : symbol.name = name <;> simp [hfirst, h]
      · by_cases hname : first.name = name
        · have h : symbol.name ≠ name := fun h => hfirst (hname.trans h.symm)
          simp [hname, h, h.symm]
        · simp [hfirst, hname, ih]

/-- A symbol may take the place of the one that it can be used for. -/
theorem keeps_insert (hc : ∀ symbol ∈ c.entries, symbol.IsEntry) {symbol : Symbol}
    (h : ∀ s, c.find? symbol.name = some s → s.Keeps symbol) : c.Keeps (c.insert symbol) := by
  intro name s hs
  have hfind : (c.insert symbol).find? name =
      if symbol.name = name then some (symbol.atLevel 0) else c.find? name :=
    find?_put (symbol.atLevel 0) c.entries name
  by_cases hname : symbol.name = name
  · rw [if_pos hname] at hfind
    obtain ⟨hkind, htype, huser, hfunction, harity, hreturns, htakes⟩ := h s (hname ▸ hs)
    exact ⟨_, hfind, hkind, htype, huser, hfunction, harity, hreturns, htakes⟩
  · rw [if_neg hname] at hfind
    exact ⟨s, hfind.trans hs, (hc s (List.mem_of_find?_eq_some hs)).keeps⟩

/-- A variable takes the place of one of its type. -/
theorem addVariable_keeps (hc : ∀ symbol ∈ c.entries, symbol.IsEntry) {name : String}
    {type : DataType} (htype : ∀ s ∈ c.find? name, s.kind = .catalog ∧ s.type.same type = true)
    (h : c.addVariable name type = .ok c') : c.Keeps c' := by
  have hinsert : c' = c.insert (addVariable.binding name type) := by
    unfold addVariable at h
    split at h
    · split at h
      · cases h
        rfl
      · cases h
    · cases h
      rfl
  rw [hinsert]
  refine keeps_insert hc fun s hs => ?_
  obtain ⟨hkind, hsame⟩ := htype s hs
  have hentry := hc s (List.mem_of_find?_eq_some hs)
  have hkinds {kind : SymbolKind} (hother : .catalog ≠ kind) : s.kind ≠ kind := by
    rw [hkind]
    exact hother
  have hnone (link : Signature) (hlink : link ∈ s.links) : False :=
    hkinds (by decide) (hentry.kind_of_mem hlink)
  exact ⟨hkind.symm, hsame, fun h => absurd h (hkinds (by decide)),
    fun h => absurd h (hkinds (by decide)), fun link hlink => (hnone link hlink).elim,
    fun link hlink => (hnone link hlink).elim, fun link hlink => (hnone link hlink).elim⟩

/-- A definition makes a function or joins one. -/
theorem addOverload_keeps (hc : ∀ symbol ∈ c.entries, symbol.IsEntry) {link : Signature}
    (h : c.addOverload link = .ok c') : c.Keeps c' := by
  unfold addOverload at h
  split at h
  · rename_i hfree
    cases h
    refine keeps_insert hc fun s hs => ?_
    have hsome : c.find? link.name = some s := hs
    rw [hfree] at hsome
    cases hsome
  · rename_i symbol hfind
    have hentry := hc symbol (List.mem_of_find?_eq_some hfind)
    split at h
    · rename_i hkind
      split at h
      · rename_i chain hchain
        cases h
        refine keeps_insert hc fun s hs => ?_
        have hsome : c.find? symbol.name = some s := hs
        rw [find?_name hfind, hfind] at hsome
        cases hsome
        exact hentry.keeps_add hkind hchain
      · cases h
    · cases h

/-- A type takes no place but a free one. -/
theorem addUserType_keeps (hc : ∀ symbol ∈ c.entries, symbol.IsEntry) {user : UserType}
    (h : c.addUserType user = .ok c') : c.Keeps c' := by
  unfold addUserType at h
  split at h
  · cases h
  · rename_i hfree
    cases h
    refine keeps_insert hc fun s hs => ?_
    have hsome : c.find? user.name = some s := hs
    rw [hfree] at hsome
    cases hsome

/-- Entering a statement keeps what the entries mean. -/
theorem register_keeps (hc : ∀ symbol ∈ c.entries, symbol.IsEntry) (hst : c.Admits st)
    (h : c.register st = .ok c') : c.Keeps c' := by
  cases st with
  | expression value =>
      cases h
      exact keeps_of_entries hc rfl
  | assign name value => exact addVariable_keeps hc hst.2.2 h
  | define name link body => exact addOverload_keeps hc h
  | typeDef user => exact addUserType_keeps hc h

end Catalog

-- ========================================================== courses

/-- The directive that goes back to the saved entries. -/
def Piece.isLoad (p : Piece) : Bool :=
  match p.body with
  | .directive text => (Text.words text).map String.ofList == ["catalog", "load"]
  | .statement _ => false

namespace Session

open SessionStep

/-- The session before each piece of a text and in the end. -/
def stops (source : List Char) : List Piece → Session → List Session
  | [], s => [s]
  | p :: rest, s => s :: match piece source p s with
    | .ok _ s => stops source rest s
    | .error f s =>
      let s := s.recover f source
      if s.aborted || s.options.stopOnError then [s] else stops source rest s

/-- The pieces that a call works through. -/
def Call.pieces : Call → List Piece
  | .process text => Piece.split text
  | .compile .. | .takeOutput => []

/-- The session at the points inside a call. -/
def inside (s : Session) : Call → List Session
  | .process text => stops text (Piece.split text) s.started
  | .compile .. | .takeOutput => []

/-- The session at all points of a series of calls: before and after
each call and, where a text is worked through, each of its pieces. -/
def course (s : Session) : List Call → List Session
  | [] => [s]
  | call :: rest => s :: (s.inside call ++ course (s.perform call) rest)

variable {s s' : Session} {source : List Char}

/-- A text is first stopped at where it begins. -/
theorem head?_stops (source : List Char) (ps : List Piece) (s : Session) :
    (stops source ps s).head? = some s := by
  cases ps with
  | nil => rfl
  | cons p rest => rfl

/-- A course begins with the session. -/
theorem head?_course (s : Session) (calls : List Call) : (s.course calls).head? = some s := by
  cases calls with
  | nil => rfl
  | cons call rest => rfl

/-- Working through a text ends where its pieces lead. -/
theorem getLast?_stops (source : List Char) (ps : List Piece) (s : Session) :
    (stops source ps s).getLast? = some (pieces source ps s) := by
  induction ps generalizing s with
  | nil => rfl
  | cons p rest ih =>
      unfold stops pieces
      rw [List.getLast?_cons]
      cases piece source p s with
      | ok u s₁ =>
          dsimp only
          rw [ih s₁]
          rfl
      | error f s₁ =>
          dsimp only
          split
          · rfl
          · rw [ih (s₁.recover f source)]
            rfl

/-- The last point is what the calls leave. -/
theorem getLast?_course (s : Session) (calls : List Call) :
    (s.course calls).getLast? = some (s.after calls) := by
  induction calls generalizing s with
  | nil => rfl
  | cons call rest ih =>
      rw [course, List.getLast?_cons, List.getLast?_append, ih]
      rfl

/-- A directive other than loading leaves the entries alone. -/
theorem directive_entries {text : List Char} {u : Unit} (h : directive text s = .ok u s')
    (hload : (Text.words text).map String.ofList ≠ ["catalog", "load"]) :
    s'.catalog.entries = s.catalog.entries := by
  unfold directive at h
  generalize (Text.words text).map String.ofList = words at h hload
  split at h
  · rename_i level
    cases hlevel : TraceLevel.read level with
    | ok trace =>
        rw [hlevel] at h
        cases h
        rfl
    | error e =>
        rw [hlevel] at h
        cases h
  · exact absurd rfl hload
  · cases h
    rfl
  · rw [(Obeys.setExecution true).eq] at h
    cases h
    rfl
  · rw [(Obeys.setExecution false).eq] at h
    cases h
    rfl
  · cases h

/-- The catalog holds entries, and so does what is saved. -/
abbrev HoldsEntries (s : Session) : Prop :=
  s.Stores fun entries => ∀ symbol ∈ entries, symbol.IsEntry

theorem HoldsEntries.keeps (hs : s.HoldsEntries) (h : s'.catalog = s.catalog) :
    s.catalog.Keeps s'.catalog := by
  rw [h]
  exact Catalog.keeps_of_entries hs.entries rfl

/-- A statement that compiles keeps what the entries mean. -/
theorem statement_keeps {text : List Char} {offset : Nat} {c : Compiled}
    (hs : s.HoldsEntries)
    (h : statement text offset source s = .ok c s') : s.catalog.Keeps s'.catalog := by
  obtain ⟨sentence, st, w, hbuild, hregister⟩ := statement_registers hs.context h
  exact Catalog.register_keeps hs.entries (Catalog.admits_of_statement hs.entries hbuild) hregister

/-- A piece that succeeds keeps what the entries mean, unless it goes
back to saved ones. -/
theorem piece_keeps {p : Piece} {u : Unit}
    (hs : s.HoldsEntries)
    (hload : p.isLoad = false) (h : piece source p s = .ok u s') : s.catalog.Keeps s'.catalog := by
  unfold piece at h
  unfold Piece.isLoad at hload
  generalize p.body = body at h hload
  cases body with
  | statement text =>
      dsimp only at h
      cases hstatement : statement text p.offset source s with
      | error f s₁ =>
          rw [bind_of_error hstatement] at h
          cases h
      | ok c s₁ =>
          rw [bind_of_ok hstatement] at h
          cases h
          exact (statement_keeps hs hstatement : s.catalog.Keeps s₁.catalog)
  -- of the directives only loading changes entries
  | directive text =>
      dsimp only at h hload
      cases hdirective : directive text s with
      | error f s₁ =>
          rw [hdirective] at h
          cases h
      | ok v s₁ =>
          rw [hdirective] at h
          cases h
          have hwords := beq_eq_false_iff_ne.mp hload
          exact Catalog.keeps_of_entries hs.entries (directive_entries hdirective hwords)

/-- From piece to piece a text without loads keeps the entries. -/
theorem stops_isChain (source : List Char) {ps : List Piece}
    (hs : s.HoldsEntries)
    (hload : ∀ p ∈ ps, p.isLoad = false) :
    (stops source ps s).IsChain fun s t => s.catalog.Keeps t.catalog := by
  -- the induction is on the pieces
  induction ps generalizing s with
  | nil => exact .singleton s
  | cons p rest ih =>
      obtain ⟨hp, hrest⟩ := List.forall_mem_cons.mp hload
      unfold stops
      obtain ⟨_, s₁, -, hpiece, -, -, -⟩ | ⟨f, s₁, -, hpiece, -, hcatalog, -⟩ :=
        piece_cases source p s
      · rw [hpiece]
        refine List.isChain_cons.mpr
          ⟨?_, ih (piece_stores Catalog.isLasting_isEntry hs hpiece) hrest⟩
        rw [head?_stops]
        rintro _ ⟨⟩
        exact piece_keeps hs hp hpiece
      -- a piece that fails leaves the catalog as it was, and recovering does so too
      · rw [hpiece]
        dsimp only
        have hrecovered := hs.recover f source hcatalog
        have hkeeps : s.catalog.Keeps (s₁.recover f source).catalog := by
          have hcore := congrArg Session.catalog (s₁.recover_eq f source).1
          exact hs.keeps (hcore.trans hcatalog)
        split
        · exact List.isChain_cons.mpr ⟨by rintro _ ⟨⟩; exact hkeeps, .singleton _⟩
        · refine List.isChain_cons.mpr ⟨?_, ih hrecovered hrest⟩
          rw [head?_stops]
          rintro _ ⟨⟩
          exact hkeeps

/-- A single statement keeps what the entries mean, compiled or not. -/
theorem compileStatement_keeps (hs : s.HoldsEntries) (text : List Char) (offset : Nat)
    (source : List Char) :
    s.catalog.Keeps (s.compileStatement text offset source).2.catalog := by
  unfold compileStatement
  cases hstatement : statement text offset source s with
  | ok c s₁ => exact statement_keeps hs hstatement
  | error f s₁ => exact hs.keeps (statement_eq_error hstatement).2.2

/-- From one point of a session to the next, what the entries mean is
kept. -/
theorem course_isChain {calls : List Call} (hs : s.HoldsEntries)
    (hload : ∀ call ∈ calls, ∀ p ∈ call.pieces, p.isLoad = false) :
    (s.course calls).IsChain fun s t => s.catalog.Keeps t.catalog := by
  -- the induction is on the calls, and a text may pass many points on its way
  induction calls generalizing s with
  | nil => exact .singleton s
  | cons call rest ih =>
      have hperform : (s.perform call).HoldsEntries :=
        perform_stores Catalog.isLasting_isEntry call hs
      obtain ⟨hcall, hothers⟩ := List.forall_mem_cons.mp hload
      have hrest := ih hperform hothers
      rw [course, List.isChain_cons, List.isChain_append, head?_course]
      -- from the last point of the one call to the first of the next nothing changes
      cases call with
      | process text =>
          have hstarted : s.started.HoldsEntries := ⟨hs.context, hs.entries, hs.saved⟩
          have hstops := stops_isChain text hstarted hcall
          refine ⟨?_, hstops, hrest, ?_⟩
          · rw [inside, List.head?_append, head?_stops]
            rintro _ ⟨⟩
            exact hs.keeps rfl
          · -- the last point inside the call is the one after it
            rw [inside, getLast?_stops]
            rintro _ ⟨⟩ _ ⟨⟩
            exact hperform.keeps rfl
      -- any other call has no point inside
      | compile text offset source =>
          rw [inside, List.nil_append, head?_course, List.getLast?_nil]
          refine ⟨?_, .nil, hrest, fun _ h => absurd h (Option.not_mem_none _)⟩
          rintro _ ⟨⟩
          exact compileStatement_keeps hs text offset source
      | takeOutput =>
          rw [inside, List.nil_append, head?_course, List.getLast?_nil]
          refine ⟨?_, .nil, hrest, fun _ h => absurd h (Option.not_mem_none _)⟩
          rintro _ ⟨⟩
          exact hs.keeps rfl

/-- Entries keep what they mean. Take any series of calls in which no
text goes back to saved entries, on a session that began with no
entries, and its points from the beginning to what the calls leave. A
name that has an entry at one point has one at every later point, of
the same kind and with an equal type, for a user type the very same. A
function has links that take as many arguments as before and return an
equal type, and all arguments that it took it takes. -/
theorem entries_keep_their_meaning (options : Options) (evaluator : Option Evaluator)
    {calls : List Call} (hload : ∀ call ∈ calls, ∀ p ∈ call.pieces, p.isLoad = false)
    {start : Session} (hstart : start = { options, evaluator }) :
    (start.course calls).head? = some start ∧
    (start.course calls).getLast? = some (start.after calls) ∧
    (start.course calls).Pairwise fun earlier later => earlier.catalog.Keeps later.catalog := by
  refine ⟨head?_course start calls, getLast?_course start calls, ?_⟩
  have hholds : start.HoldsEntries := by
    rw [hstart]
    exact ⟨.inl rfl, Catalog.isLasting_isEntry.nil, nofun⟩
  have htrans : Trans (fun s t : Session => s.catalog.Keeps t.catalog)
      (fun s t : Session => s.catalog.Keeps t.catalog)
      (fun s t : Session => s.catalog.Keeps t.catalog) :=
    ⟨Catalog.Keeps.trans⟩
  exact List.isChain_iff_pairwise.mp (course_isChain hholds hload)

/-- A variable, a function and a type; another link, compiled on its
own; then the variable with its columns in another order, the first link
again, and a variable that is refused the name of the type. -/
def rebound : List Call :=
  let link := "def f(p: text) => 2".toList
  [.process "v := {{a := 1, b := 2}}; def f(p: bool) => 1; type t(x: text)".toList,
    .compile link 0 link,
    .process "v := {{b := 3, a := 4}}; def f(q: bool) => 5; t := 6".toList]

/-- Nothing that was there has changed its meaning. -/
theorem entries_keep_their_meaning_rebound :
    (∀ call ∈ rebound, ∀ p ∈ call.pieces, p.isLoad = false) ∧
    (({} : Session).after rebound).catalog.entries.map (fun s => (s.name, s.links.length))
      = [("v", 0), ("f", 2), ("t", 0)] ∧
    (({} : Session).course rebound).Pairwise fun earlier later =>
      earlier.catalog.Keeps later.catalog := by
  have hload : ∀ call ∈ rebound, ∀ p ∈ call.pieces, p.isLoad = false := by decide +kernel
  exact ⟨hload, by decide +kernel, (entries_keep_their_meaning {} none hload rfl).2.2⟩

end Session

end RelQuery
