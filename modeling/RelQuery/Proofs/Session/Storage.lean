/-
What a session keeps in its catalog.

There is one way into the catalog: a statement that was built with
nothing open, turned into code and run is entered. Saving copies the
entries and loading goes back to the copy. So a property of lists of
entries that holds of no entries, and that entering such a statement
keeps, holds of the entries at every point of every session, and of
those saved (`within_stores`). A point of a session is reached by calls
and then by the pieces of one more text.

That no placeholder occurs in the entries is such a property.
-/
import RelQuery.Proofs.Build.Definite
import RelQuery.Proofs.Call.Overloads
import RelQuery.Proofs.Session.Execution
import RelQuery.Proofs.Session.Isolation

namespace RelQuery

-- ========================================================== entries

namespace Catalog

variable {c c' : Catalog} {st : Statement}

/-- What a statement puts into the catalog: a variable, a type, a new
function, or a function that is there with another overload. -/
inductive Enters (c : Catalog) : Statement → Symbol → Prop
  | assign (name : String) (value : Node) :
      Enters c (.assign name value) (addVariable.binding name value.dataType)
  | define (name : String) (link : Signature) (body : Segment) :
      Enters c (.define name link body) (.callable link.name .deferred [link])
  | overload (name : String) (link : Signature) (body : Segment) {symbol : Symbol}
      {chain : Overloads} (hsymbol : c.find? link.name = some symbol)
      (hkind : symbol.kind = .deferred) (hchain : Overloads.add symbol.links link = .ok chain) :
      Enters c (.define name link body) { symbol with calls := some chain }
  | typeDef (user : UserType) :
      Enters c (.typeDef user) { name := user.name, kind := .userType, type := .user user }

/-- A catalog registers a statement by leaving all as it was or by putting
in its symbol. -/
theorem register_eq_ok (h : c.register st = .ok c') :
    c' = c ∨ ∃ symbol, c.Enters st symbol ∧ c' = c.insert symbol := by
  cases st with
  | expression value =>
      cases h
      exact .inl rfl
  -- a variable is entered anew or in the place of one of the same type
  | assign name value =>
      refine .inr ⟨_, .assign name value, ?_⟩
      have hvariable : c.addVariable name value.dataType = .ok c' := h
      unfold addVariable at hvariable
      split at hvariable
      · split at hvariable
        · cases hvariable
          rfl
        · cases hvariable
      · cases hvariable
        rfl
  -- a function is entered anew or becomes an overload of one that is there
  | define name link body =>
      have hoverload : c.addOverload link = .ok c' := h
      unfold addOverload at hoverload
      split at hoverload
      · cases hoverload
        exact .inr ⟨_, .define name link body, rfl⟩
      · split at hoverload
        · split at hoverload
          · cases hoverload
            exact .inr ⟨_, .overload name link body ‹_› ‹_› ‹_›, rfl⟩
          · cases hoverload
        · cases hoverload
  -- a type is entered if its name is new
  | typeDef user =>
      have htype : c.addUserType user = .ok c' := h
      unfold addUserType at htype
      split at htype
      · cases htype
      · cases htype
        exact .inr ⟨_, .typeDef user, rfl⟩

/-- Registering saves nothing. -/
theorem saved_register (h : c.register st = .ok c') : c'.saved = c.saved := by
  obtain rfl | ⟨symbol, -, rfl⟩ := register_eq_ok h
  · rfl
  · rfl

/-- An entry of a catalog that one was put in is that one or was there. -/
theorem mem_put {symbol s : Symbol} {entries : List Symbol} (h : s ∈ put symbol entries) :
    s = symbol ∨ s ∈ entries :=
  Overloads.mem_of_put (put symbol) rfl (fun _ _ => rfl) h

/-- An entry was there, or it is the one that the statement makes. -/
theorem mem_register (h : c.register st = .ok c') {s : Symbol} (hs : s ∈ c'.entries) :
    s ∈ c.entries ∨ ∃ symbol, c.Enters st symbol ∧ s = symbol.atLevel 0 := by
  obtain rfl | ⟨symbol, henters, rfl⟩ := register_eq_ok h
  · exact .inl hs
  · exact (mem_put hs).symm.imp_right fun heq => ⟨symbol, henters, heq⟩

/-- A property of entries that holds of none, and that is kept when a
statement built with nothing open is entered. -/
structure IsLasting (I : List Symbol → Prop) : Prop where
  nil : I []
  register : ∀ {c c' : Catalog} {sentence : Sentence} {st : Statement} {w : Workspace},
    I c.entries → Build.statement c sentence { context := .fresh } = .ok st w →
      c.register st = .ok c' → I c'.entries

end Catalog

-- ========================================================= sessions

namespace Session

/-- The entries of the catalog and those saved have a property, and a
statement is built with nothing open or not at all. -/
structure Stores (I : List Symbol → Prop) (s : Session) : Prop where
  context : s.context.IsRegular
  entries : I s.catalog.entries
  saved : ∀ entries ∈ s.catalog.saved, I entries

end Session

namespace SessionStep

open Session

variable {I : List Symbol → Prop} {s s' : Session} {text source : List Char} {offset : Nat}

/-- With a level open no statement can be prepared. -/
theorem context_eq_fresh {catalog : Catalog} {context context' : Context}
    {prepared : Statement × List UInt8} (hcontext : context.IsRegular)
    (h : prepare catalog context text offset source = (.ok prepared, context')) :
    context = .fresh := by
  obtain ⟨-, hopen⟩ := prepare_isRegular catalog text offset source hcontext
  refine hcontext.eq_fresh (Decidable.byContradiction fun hdeep => ?_)
  obtain ⟨f, hf⟩ := hopen hdeep
  rw [h] at hf
  cases hf

/-- A statement that compiles was built with nothing open, and it is
entered. -/
theorem statement_registers (hs : s.context.IsRegular) {c : Compiled}
    (h : statement text offset source s = .ok c s') :
    ∃ sentence st w, Build.statement s.catalog sentence { context := .fresh } = .ok st w ∧
      s.catalog.register st = .ok s'.catalog := by
  obtain ⟨-, -, st, context, hprepare, -, hregister, -⟩ := statement_eq_ok h
  obtain ⟨sentence, w, -, hbuild, -⟩ := prepare_eq_ok hprepare
  rw [context_eq_fresh hs hprepare] at hbuild
  exact ⟨sentence, st, w, hbuild, hregister⟩

/-- A statement stores entries that last. -/
theorem statement_stores (hI : Catalog.IsLasting I) (hs : s.Stores I) {c : Compiled}
    (h : statement text offset source s = .ok c s') : s'.Stores I := by
  obtain ⟨sentence, st, w, hbuild, hregister⟩ := statement_registers hs.context h
  have hcontext := compileStatement_isRegular text source offset hs.context
  unfold compileStatement at hcontext
  rw [h] at hcontext
  refine ⟨hcontext, hI.register hs.entries hbuild hregister, ?_⟩
  rw [Catalog.saved_register hregister]
  exact hs.saved

/-- A directive saves the entries, goes back to those saved, or leaves
the catalog alone. -/
theorem directive_catalog {u : Unit} (h : directive text s = .ok u s') :
    s'.context = s.context ∧ (s'.catalog = s.catalog ∨ s'.catalog = s.catalog.save.2 ∨
      ∃ count, s.catalog.load = .ok (count, s'.catalog)) := by
  obtain ⟨ask, hobeys⟩ := directive_obeys text
  refine ⟨(hobeys.advances h).2, ?_⟩
  -- the cases are those of the words of the directive
  unfold directive at h
  generalize (Text.words text).map String.ofList = words at h
  split at h
  · rename_i level
    cases hlevel : TraceLevel.read level with
    | ok trace =>
        rw [hlevel] at h
        cases h
        exact .inl rfl
    | error e =>
        rw [hlevel] at h
        cases h
  · rw [bind_of_ok (rfl : (get : SessionStep Session) s = .ok _ _)] at h
    cases hload : s.catalog.load with
    | ok loaded =>
        rw [hload] at h
        cases h
        exact .inr (.inr ⟨_, rfl⟩)
    | error e =>
        rw [hload] at h
        cases h
  · cases h
    exact .inr (.inl rfl)
  · rw [(Obeys.setExecution true).eq] at h
    cases h
    exact .inl rfl
  · rw [(Obeys.setExecution false).eq] at h
    cases h
    exact .inl rfl
  · cases h

/-- A directive stores entries that last. -/
theorem directive_stores (hs : s.Stores I) {u : Unit} (h : directive text s = .ok u s') :
    s'.Stores I := by
  obtain ⟨hcontext, hsame | hsaved | ⟨count, hloaded⟩⟩ := directive_catalog h
  · exact ⟨hcontext ▸ hs.context, hsame ▸ hs.entries, hsame ▸ hs.saved⟩
  · refine ⟨hcontext ▸ hs.context, hsaved ▸ hs.entries, ?_⟩
    rw [hsaved]
    rintro _ ⟨⟩
    exact hs.entries
  · unfold Catalog.load at hloaded
    split at hloaded
    · rename_i entries hentries
      injection hloaded with hpair
      obtain ⟨-, hcatalog⟩ := Prod.mk.inj hpair
      refine ⟨hcontext ▸ hs.context, ?_, ?_⟩
      · rw [← hcatalog]
        exact hs.saved entries hentries
      · rw [← hcatalog]
        exact hs.saved
    · cases hloaded

/-- A piece stores entries that last. -/
theorem piece_stores (hI : Catalog.IsLasting I) (hs : s.Stores I) {p : Piece} {u : Unit}
    (h : piece source p s = .ok u s') : s'.Stores I := by
  unfold piece at h
  generalize p.body = body at h
  cases body with
  | statement text =>
      dsimp only at h
      cases hstatement : statement text p.offset source s with
      | error f s₁ =>
          rw [bind_of_error hstatement] at h
          cases h
      | ok c s₁ =>
          rw [bind_of_ok hstatement] at h
          cases h
          obtain ⟨hcontext, hentries, hsaved⟩ := statement_stores hI hs hstatement
          exact ⟨hcontext, hentries, hsaved⟩
  | directive text =>
      dsimp only at h
      cases hdirective : directive text s with
      | error f s₁ =>
          rw [hdirective] at h
          cases h
      | ok v s₁ =>
          rw [hdirective] at h
          cases h
          exact directive_stores hs hdirective

end SessionStep

namespace Session

open SessionStep

variable {I : List Symbol → Prop} {s s' : Session}

/-- A failure changes no entries, and clears the context. -/
theorem Stores.recover (hs : s.Stores I) (f : Failure) (source : List Char)
    (hcatalog : s'.catalog = s.catalog) : (s'.recover f source).Stores I := by
  have hcore := (s'.recover_eq f source).1
  have hcatalog' : (s'.recover f source).catalog = s.catalog :=
    (congrArg Session.catalog hcore).trans hcatalog
  exact ⟨.inl (congrArg Session.context hcore), hcatalog' ▸ hs.entries, hcatalog' ▸ hs.saved⟩

/-- The pieces of a text store entries that last: the induction is on the
pieces. -/
theorem pieces_stores (hI : Catalog.IsLasting I) (source : List Char) (ps : List Piece)
    (hs : s.Stores I) : (pieces source ps s).Stores I := by
  induction ps generalizing s with
  | nil => exact hs
  | cons p rest ih =>
      unfold pieces
      obtain ⟨_, s₁, -, hpiece, -, -, -⟩ | ⟨f, s₁, -, hpiece, -, hcatalog, -⟩ :=
        piece_cases source p s
      · rw [hpiece]
        exact ih (piece_stores hI hs hpiece)
      · rw [hpiece]
        dsimp only
        have hrecovered := hs.recover f source hcatalog
        split
        · exact hrecovered
        · exact ih hrecovered

/-- A call stores entries that last. -/
theorem perform_stores (hI : Catalog.IsLasting I) (call : Call) (hs : s.Stores I) :
    (s.perform call).Stores I := by
  cases call with
  | process text => exact pieces_stores hI text _ ⟨hs.context, hs.entries, hs.saved⟩
  | takeOutput => exact ⟨hs.context, hs.entries, hs.saved⟩
  | compile text offset source =>
      have hcontext := compileStatement_isRegular text source offset hs.context
      show (s.compileStatement text offset source).2.Stores I
      unfold compileStatement at hcontext ⊢
      cases hstatement : statement text offset source s with
      | ok c s₁ => exact statement_stores hI hs hstatement
      | error f s₁ =>
          rw [hstatement] at hcontext
          obtain ⟨-, -, hcatalog⟩ := statement_eq_error hstatement
          exact ⟨hcontext, hcatalog ▸ hs.entries, hcatalog ▸ hs.saved⟩

/-- All calls store entries that last: the induction is on the calls. -/
theorem after_stores (hI : Catalog.IsLasting I) (calls : List Call) (hs : s.Stores I) :
    (s.after calls).Stores I := by
  induction calls generalizing s with
  | nil => exact hs
  | cons call rest ih => exact ih (perform_stores hI call hs)

-- =============================================== points of a session

/-- The session after some calls, in the middle of another text. -/
def within (s : Session) (calls : List Call) (text : List Char) (done : List Piece) : Session :=
  pieces text done (s.after calls).started

/-- What lasts holds at every point of a session that began with no
entries. -/
theorem within_stores (hI : Catalog.IsLasting I) (options : Options)
    (evaluator : Option Evaluator) (calls : List Call) (text : List Char) (done : List Piece) :
    (({ options, evaluator } : Session).within calls text done).Stores I := by
  have hstart : ({ options, evaluator } : Session).Stores I := ⟨.inl rfl, hI.nil, nofun⟩
  obtain ⟨hcontext, hentries, hsaved⟩ := after_stores hI calls hstart
  exact pieces_stores hI text done ⟨hcontext, hentries, hsaved⟩

/-- Working through texts leaves nothing open. -/
theorem within_fresh (hs : s.context = .fresh) {calls : List Call}
    (hcalls : ∀ call ∈ calls, ∃ text, call = .process text) (text : List Char)
    (done : List Piece) : (s.within calls text done).context = .fresh := by
  have hafter : (s.after calls).context = .fresh := by
    induction calls generalizing s with
    | nil => exact hs
    | cons call rest ih =>
        obtain ⟨⟨other, rfl⟩, hrest⟩ := List.forall_mem_cons.mp hcalls
        exact ih ((s.process_clear other).1 hs) hrest
  have hclear := pieces_clear (s := (s.after calls).started) text done (.inl hafter)
  exact hclear.resolve_right fun hopen => hopen.1 hafter

-- ===================================================== placeholders

/-- No placeholder gets into the catalog. -/
theorem isLasting_isDefinite :
    Catalog.IsLasting fun entries => ∀ symbol ∈ entries, symbol.IsDefinite where
  nil := fun _ h => absurd h List.not_mem_nil
  register := by
    intro c c' sentence st w hc hbuild hregister symbol hsymbol
    have hdefinite := Build.statement_definite hc sentence
    obtain ⟨-, hst⟩ := hdefinite _ st w Workspace.meets_fresh hbuild
    obtain hold | ⟨entered, henters, rfl⟩ := Catalog.mem_register hregister hsymbol
    · exact hc symbol hold
    · cases henters with
      | assign name value => exact ⟨hst.isDefinite_dataType, fun _ h => absurd h List.not_mem_nil⟩
      | define name link body =>
          exact ⟨hst.1.returns, List.forall_mem_singleton.mpr hst.1⟩
      | overload name link body hfind hkind hchain =>
          have hsymbol := hc _ (List.mem_of_find?_eq_some hfind)
          refine ⟨hsymbol.type, fun s hs => ?_⟩
          rcases Overloads.mem_add hchain hs with rfl | hs
          · exact hst.1
          · exact hsymbol.links s hs
      | typeDef user => exact ⟨hst, fun _ h => absurd h List.not_mem_nil⟩

/-- No placeholder survives building. At every point of a session that
began with no entries none occurs in the catalog; while the session
works through texts nothing is open between statements; and a statement
that is built there has none at any node or in any heading, passes the
check of types, and is not stopped by one when its code is made. -/
theorem no_placeholder_survives_building (options : Options) (evaluator : Option Evaluator)
    (calls : List Call) (text : List Char) (done : List Piece) {s : Session}
    (hs : s = ({ options, evaluator } : Session).within calls text done) :
    ((∀ call ∈ calls, ∃ source, call = .process source) → s.context = .fresh) ∧
    (∀ symbol ∈ s.catalog.entries, symbol.IsDefinite) ∧
    (∀ entries ∈ s.catalog.saved, ∀ symbol ∈ entries, symbol.IsDefinite) ∧
    ∀ (sentence : Sentence) (st : Statement) (w : Workspace),
      Build.statement s.catalog sentence { context := .fresh } = .ok st w →
        (∀ root ∈ st.root?, ∀ n ∈ root.nodes,
          n.dataType.isDefinite = true ∧ ∀ heading ∈ n.headings, Heading.IsDefinite heading) ∧
        (∀ heading ∈ st.headings, Heading.IsDefinite heading) ∧
        st.loose? = none ∧ ∀ t, st.emit ≠ .error (.placeholder t) := by
  -- what a session stores is definite, as definite entries last
  have hstores : s.Stores fun entries => ∀ symbol ∈ entries, symbol.IsDefinite := by
    rw [hs]
    exact within_stores isLasting_isDefinite options evaluator calls text done
  refine ⟨fun hcalls => ?_, hstores.entries, hstores.saved, fun sentence st w hbuild => ?_⟩
  · rw [hs]
    exact within_fresh rfl hcalls text done
  -- a statement is built from definite entries, and states definite types only
  have hdefinite := Build.statement_definite hstores.entries sentence
  obtain ⟨-, hst⟩ := hdefinite _ st w Workspace.meets_fresh hbuild
  refine ⟨fun root hroot n hn => ?_, hst.headings, hst.loose?_eq_none, hst.emit_ne_placeholder⟩
  have hbelow : n.Everywhere Node.IsDefinite := fun m hm =>
    hst.root root hroot m (Node.mem_nodes_trans hn hm)
  exact ⟨hbelow.isDefinite_dataType, (hst.root root hroot n hn).headings⟩

/-- A variable, and a function that takes the greatest of its column. -/
def greatestValue : List Char × List Char :=
  ("r := {{a := 1}}".toList, "def top() => r.{m := max(a)}".toList)

/-- A call of the function. The greatest value is declared with a
placeholder for its type. -/
theorem no_placeholder_survives_building_greatest_value :
    ∃ s : Session, s = ({} : Session).within [.process greatestValue.1] greatestValue.2
        (Piece.split greatestValue.2) ∧
      s.catalog.entries.map (·.name) = ["r", "top"] ∧ s.context = .fresh ∧
      (∀ symbol ∈ s.catalog.entries, symbol.IsDefinite) ∧
      ∃ st w, Build.statement s.catalog (.expression (.call 0 "top" []))
          { context := .fresh } = .ok st w ∧
        st.loose? = none ∧ ∀ t, st.emit ≠ .error (.placeholder t) := by
  obtain ⟨hcontext, hentries, -, hbuilt⟩ := no_placeholder_survives_building {} none
    [.process greatestValue.1] greatestValue.2 (Piece.split greatestValue.2) rfl
  refine ⟨_, rfl, by decide +kernel, ?_, hentries, ?_⟩
  · exact hcontext (List.forall_mem_singleton.mpr ⟨_, rfl⟩)
  · have hrun : endsWith (fun _ _ => true) (Build.statement
        (({} : Session).within [.process greatestValue.1] greatestValue.2
          (Piece.split greatestValue.2)).catalog
        (.expression (.call 0 "top" [])) { context := .fresh }) = true := by decide +kernel
    obtain ⟨st, w, hbuild, -⟩ := endsWith_eq_true hrun
    obtain ⟨-, -, hloose, hemit⟩ := hbuilt _ st w hbuild
    exact ⟨st, w, hbuild, hloose, hemit⟩

end Session

end RelQuery
