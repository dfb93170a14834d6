import SymbolGraph.Proofs.Run.Walked
import SymbolGraph.Proofs.Symbol.Releasing

/-!
# Proofs — Session — overrides end with their region

Overrides are asserted at the root of a module and at type aliases, and are released when the walk
leaves the node, also when something below it failed.  Making records asks about symbols but asserts
nothing.  So no walk leaves an override behind that was not there when it began.

* `Session.Sheds`: nothing is asserted in the end that was not asserted at the beginning.
* `Session.resolve_sheds`: making records asserts nothing.
* `Session.underOverrides_sheds`: a walk under overrides.
* `Session.visitFile_no_overrides`: after the walk of a file no override is in effect.
-/

namespace SymbolGraph.Session

open SymbolGraph.Action

variable {α β : Type} {w : Setting} {s t : Session}

/-- Nothing is asserted in the end that was not asserted at the beginning. -/
def Sheds (s t : Session) : Prop := t.symbols.overrides.Under s.symbols.overrides

instance : IsPreorder Session Sheds where
  refl _ := .refl _
  trans _ _ _ h h' := h'.trans h

/-- Where the overrides are the same, nothing was asserted. -/
theorem sheds_of_eq (h : t.symbols.overrides = s.symbols.overrides) : Sheds s t := by
  unfold Sheds
  rw [h]
  exact .refl _

/-! ### Operations -/

/-- The store has nothing to do with overrides. -/
theorem store_sheds (act : Store.Storing α) : Stays Sheds (liftM act : Running α) := by
  intro s
  refine ensures_onPart.mpr ?_
  unfold Ensures
  split
  · exact sheds_of_eq rfl
  · exact sheds_of_eq rfl

theorem emit_sheds (act : Emission α) : Stays Sheds (emit act) := store_sheds _

/-- A question about symbols asserts nothing. -/
theorem asks_sheds {act : StateM Symbols α}
    (h : ∀ s, Symbols.Asks w.program act s fun _ _ => True) : Stays Sheds (liftM act : Running α) :=
  fun s => ensures_onPartSafely.mpr (sheds_of_eq (h s.symbols).1.overrides)

/-- Nor has anything else but what is known of symbols. -/
theorem modify_sheds {f : Session → Session} (h : ∀ s, (f s).symbols = s.symbols) :
    Stays Sheds (modify f : Running PUnit) :=
  stays_modify fun s => sheds_of_eq (congrArg Symbols.overrides (h s))

theorem lineRange_sheds (file : FileId) (range : TextRange) :
    Stays Sheds (lineRange w file range) := by
  refine Stays.bind (stays_get.bind fun s => ?_) fun _ => stays_pure
  split
  · exact stays_pure
  · refine Stays.bind (modify_sheds ?_) fun _ => stays_pure
    exact fun _ => rfl

/-! ### Making a record -/

/-- A definition range is emitted beside the overrides. -/
theorem emitDefinition_sheds (resolution : Resolution) (id : RecordId) (symbol : SymbolRef)
    (declaration : NodeId) : Stays Sheds (emitDefinition w resolution id symbol declaration) := by
  unfold emitDefinition
  dsimp only
  split
  · exact stays_pure
  · refine (store_sheds _).bind fun known => ?_
    split
    · exact stays_pure
    · refine (lineRange_sheds _ _).bind fun _ => (lineRange_sheds _ _).bind fun _ => ?_
      refine (emit_sheds _).bind fun _ => (store_sheds _).bind fun _ => ?_
      refine Stays.bind (modify_sheds ?_) fun _ => (store_sheds _).bind fun _ => store_sheds _
      exact fun _ => rfl

/-- So are those of all declarations. -/
theorem emitDefinitions_sheds (resolution : Resolution) (id : RecordId) (symbol : SymbolRef)
    (declarations : List NodeId) :
    Stays Sheds (emitDefinitions w resolution id symbol declarations) := by
  refine (store_sheds _).bind fun known => ?_
  split
  · exact .forM fun declaration _ => emitDefinition_sheds resolution id symbol declaration
  · exact stays_pure

theorem emitHover_sheds (id : RecordId) (declarations : List NodeId) :
    Stays Sheds (emitHover w id declarations) := by
  unfold emitHover
  split
  · exact stays_pure
  · exact (emit_sheds _).bind fun _ => store_sheds _

/-- Monikers are emitted beside the overrides. -/
theorem emitMonikers_sheds (id : RecordId) (files : List FileId) (kind : LocationKind)
    (exportPath : String) : Stays Sheds (emitMonikers w id files kind exportPath) := by
  unfold emitMonikers
  dsimp only
  refine (emit_sheds _).bind fun moniker => ?_
  split
  · split
    · exact (emit_sheds _).bind fun _ => (emit_sheds _).discard.bind fun _ => store_sheds _
    · exact store_sheds _
  · exact store_sheds _

/-- Something that is only done when it is asked for. -/
theorem stays_when {c : Prop} [Decidable c] {act : Running α} {rest : Running β}
    (h : Stays Sheds act) (hrest : Stays Sheds rest) :
    Stays Sheds (if c then act >>= fun _ => rest else rest) := by
  split
  · exact h.bind fun _ => hrest
  · exact hrest

section Create

variable {resolver : Resolver} (hr : ∀ symbol location, Stays Sheds (resolver symbol location))

include hr

/-- By induction on the methods: looking for each of them asserts nothing. -/
theorem resolveBases_sheds (bases : List SymbolRef) : Stays Sheds (resolveBases resolver bases) := by
  induction bases with
  | nil => exact stays_pure
  | cons base bases ih =>
      unfold resolveBases
      refine (hr base none).attempt.bind fun result => ?_
      cases result with
      | ok id => exact ih.bind fun _ => stays_pure
      | error fault =>
          cases fault with
          | cyclicResolution => exact ih
          | _ => exact stays_throw

/-- By induction on the types: looking for each property asserts nothing. -/
theorem resolveProperties_sheds (name : String) (location : NodeId) (types : List TypeRef) :
    ∀ known, Stays Sheds (resolveProperties w resolver name location known types) := by
  induction types with
  | nil => exact fun _ => stays_pure
  | cons type types ih =>
      intro known
      unfold resolveProperties
      split
      · exact ih known
      · exact (hr _ _).bind fun id => ih _

/-- A method asks for those it overrides. -/
theorem methodKind_sheds (symbol : SymbolRef) (site : Option NodeId) (bases : List SymbolRef) :
    Stays Sheds (methodKind w resolver symbol site bases) := by
  cases site with
  | none => exact stays_pure
  | some node => exact (resolveBases_sheds hr _).bind fun _ => stays_pure

/-- By cases of the resolution: a kind only asks and looks for other records. -/
theorem recordKind_sheds (resolution : Resolution) (symbol : SymbolRef) (location : Option NodeId)
    (declarations : List NodeId) :
    Stays Sheds (recordKind w resolver resolution symbol location declarations) := by
  have hmethod := methodKind_sheds (w := w) hr symbol (declarations.head?.or location)
  unfold recordKind
  dsimp only
  split
  · exact stays_pure
  · exact stays_pure
  · exact stays_pure
  · split
    · exact stays_pure
    · exact (hr _ _).bind fun _ => stays_pure
  · split
    · exact stays_pure.bind hmethod
    · exact (asks_sheds (w := w) fun _ => Symbols.findBaseMembers_asks).bind fun _ =>
        stays_pure.bind hmethod
  · split
    · exact stays_pure
    · exact (resolveProperties_sheds hr _ _ _ _).bind fun _ => stays_pure

omit hr in
theorem emitExported_sheds (resolution : Resolution) (id : RecordId) (declarations : List NodeId)
    (exportPath : Option String) :
    Stays Sheds (emitExported w resolution id declarations exportPath) := by
  unfold emitExported
  dsimp only
  split
  · split
    · exact emitMonikers_sheds _ _ _ _
    · exact stays_pure
  · exact stays_pure

omit hr in
/-- What is known of a record besides its definitions asserts nothing. -/
theorem emitExtras_sheds (resolution : Resolution) (id : RecordId) (declarations : List NodeId)
    (exportPath : Option String) :
    Stays Sheds (emitExtras w resolution id declarations exportPath) :=
  stays_when (emitHover_sheds _ _) (emitExported_sheds _ _ _ _)

omit hr in
theorem describe_sheds (resolution : Resolution) (id : RecordId) (symbol : SymbolRef)
    (declarations : List NodeId) (exportPath : Option String) :
    Stays Sheds (describe w resolution id symbol declarations exportPath) :=
  (emitDefinitions_sheds _ _ _ _).bind fun _ => emitExtras_sheds _ _ _ _

omit hr in
theorem announce_sheds (resolution : Resolution) (id : RecordId) (symbol : SymbolRef)
    (declarations : List NodeId) (scope : Option NodeId) (exportPath : Option String) :
    Stays Sheds (announce w resolution id symbol declarations scope exportPath) := by
  cases scope with
  | none => exact describe_sheds _ _ _ _ _
  | some node => exact (store_sheds _).bind fun _ => describe_sheds _ _ _ _ _

/-- A record is made without asserting anything. -/
theorem create_sheds (symbol : SymbolRef) (location : Option NodeId) :
    Stays Sheds (create w resolver symbol location) := by
  unfold create
  dsimp only
  refine stays_ofExcept.bind fun declarations => ?_
  refine (asks_sheds (w := w) fun _ => Symbols.exportPath_asks.mono fun _ _ _ => trivial).bind
    fun exportPath => ?_
  exact (recordKind_sheds hr _ _ _ _).bind fun kind => (store_sheds _).bind fun id =>
    (announce_sheds _ _ _ _ _ _).bind fun _ => stays_pure

end Create

/-- By induction on the depth: a record is found or made without asserting anything. -/
theorem resolveWithin_sheds (fuel : Nat) : ∀ symbol location,
    Stays Sheds (resolveWithin w fuel symbol location) := by
  induction fuel with
  | zero => exact fun _ _ => stays_throw
  | succ fuel ih =>
      intro symbol location
      refine (store_sheds _).bind fun found => ?_
      split
      · exact stays_pure
      · refine (store_sheds _).bind fun _ => (create_sheds ih _ _).attempt.bind fun result => ?_
        split
        · exact stays_pure
        · exact (store_sheds _).bind fun _ => stays_throw

/-- **Making records asserts nothing.** -/
theorem resolve_sheds (symbol : SymbolRef) (location : Option NodeId) :
    Stays Sheds (resolve w symbol location) :=
  resolveWithin_sheds _ symbol location

/-! ### Under overrides -/

variable {walk : Running Unit} {node : NodeId} {overrides : List Override}

/-- Overrides are released one after the other. -/
theorem releaseAll_symbols (list : List Override) : ∀ s, Ensures
    (list.forM fun override => (Symbols.release override : Running Unit)) s
    (fun _ t => t.symbols.overrides = list.foldl Overrides.release s.symbols.overrides)
    fun _ _ => False := by
  induction list with
  | nil => exact fun _ => rfl
  | cons override rest ih =>
      exact fun s => ensures_bind.mpr (ensures_onPartSafely.mpr (ih _))

/-- **A walk under overrides.**  They were asserted before it and are released after it, whether or
not it failed. -/
theorem underOverrides_sheds {o : Overrides} (hwalk : Stays Sheds walk)
    (h : o.AssertsAll overrides s.symbols.overrides) :
    Ensures (underOverrides overrides walk) s (fun _ t => t.symbols.overrides.Under o)
      fun _ t => t.symbols.overrides.Under o := by
  have hrelease (t : Session) (ht : Sheds s t) : Ensures
      (overrides.reverse.forM fun override => (Symbols.release override : Running Unit)) t
      (fun _ u => u.symbols.overrides.Under o) fun _ u => u.symbols.overrides.Under o := by
    refine (releaseAll_symbols _ t).mono (fun _ u hu => ?_) fun _ _ hfalse => hfalse.elim
    rw [hu]
    exact h.release ht
  exact ensures_andThen.mpr ((hwalk s).mono (fun _ t ht => hrelease t ht) fun _ t ht => hrelease t ht)

/-- By induction on the targets: the overrides that a file gets are those that are asserted. -/
theorem assertExports_asserts {module : SymbolRef} : ∀ (targets : List SymbolRef) (s : Session),
    Ensures (assertExports w module targets) s
      (fun overrides t => s.symbols.overrides.AssertsAll overrides t.symbols.overrides)
      fun _ _ => False
  | [], _ => .none
  | target :: targets, s => by
      refine ensures_bind.mpr (ensures_onPartSafely.mpr (ensures_bind.mpr
        (ensures_onPartSafely.mpr (ensures_bind.mpr ?_))))
      exact (assertExports_asserts targets _).mono
        (fun _ _ ht => .more (.parent _ _) (.more (.exported _ _) ht)) fun _ _ hfalse => hfalse

/-- The overrides that a type alias gets are those that are asserted. -/
theorem assertForwards_asserts : Ensures (assertForwards w node) s
    (fun overrides t => s.symbols.overrides.AssertsAll overrides t.symbols.overrides)
    fun _ _ => False := by
  unfold assertForwards
  dsimp only
  split
  · exact .none
  · exact ensures_onPartSafely.mpr Symbols.forward_asserts

/-! ### The walk -/

/-- A file releases what it has asserted, whatever happens inside. -/
theorem insideSourceFile_sheds (hwalk : Stays Sheds walk) :
    Stays Sheds (insideSourceFile w node walk) := by
  refine (store_sheds _).discard.bind fun _ => ?_
  split
  · exact hwalk
  · refine fun s => ensures_bind.mpr ((assertExports_asserts _ s).mono (fun overrides t ht => ?_)
      fun _ _ hfalse => hfalse.elim)
    exact underOverrides_sheds ((resolve_sheds _ _).discard.bind fun _ => hwalk) ht

/-- An identifier asserts nothing. -/
theorem visitIdentifier_sheds : Stays Sheds (visitIdentifier w node) := by
  unfold visitIdentifier
  dsimp only
  split
  · exact stays_pure
  · refine (resolve_sheds _ _).bind fun id => (store_sheds _).bind fun known => ?_
    split
    · exact stays_pure
    · refine (lineRange_sheds _ _).bind fun _ => (emit_sheds _).bind fun _ => ?_
      exact (store_sheds _).bind fun _ => (store_sheds _).bind fun _ =>
        (emit_sheds _).discard.bind fun _ => store_sheds _

theorem insideNamed_sheds (name : NodeId) (file : FileId) (hwalk : Stays Sheds walk) :
    Stays Sheds (insideNamed w file name walk) := by
  refine (stays_get.bind fun _ => stays_pure).bind fun found => ?_
  split
  · exact hwalk
  · exact (store_sheds _).bind fun _ => hwalk.andThen (store_sheds _)

/-- A declaration asserts nothing by itself. -/
theorem insideDocumentSymbol_sheds (hwalk : Stays Sheds walk) :
    Stays Sheds (insideDocumentSymbol w node walk) := by
  unfold insideDocumentSymbol
  split
  · exact hwalk
  · split
    · exact (resolve_sheds _ _).discard.bind fun _ => insideNamed_sheds _ _ hwalk
    · exact insideNamed_sheds _ _ hwalk

/-- By cases of the node: a file and a type alias release what they have asserted. -/
theorem inside_sheds (hwalk : Stays Sheds walk) : Stays Sheds (inside w node walk) := by
  unfold inside
  split
  · exact insideSourceFile_sheds hwalk
  · exact visitIdentifier_sheds.bind fun _ => hwalk
  · refine fun s => ensures_bind.mpr (assertForwards_asserts.mono (fun overrides t ht => ?_)
      fun _ _ hfalse => hfalse.elim)
    exact underOverrides_sheds (insideDocumentSymbol_sheds hwalk) ht
  · split
    · exact insideDocumentSymbol_sheds hwalk
    · exact hwalk

/-- A node that is left asserts nothing. -/
theorem leave_sheds : Stays Sheds (leave w node) := by
  refine (store_sheds _).bind fun _ => ?_
  split
  · exact (store_sheds _).bind fun _ => modify_sheds fun _ => rfl
  · exact stays_pure

/-- By induction on the depth: nothing is asserted after the walk that was not before. -/
theorem visitWithin_sheds (fuel : Nat) : ∀ node, Stays Sheds (visitWithin w fuel node) := by
  induction fuel with
  | zero => exact fun _ => stays_throw
  | succ fuel ih =>
      exact fun node => (inside_sheds (.forM fun child _ => ih child)).bind fun _ => leave_sheds

/-- **No override outlives the walk of its file.**  If none is in effect before the walk then none
is in effect after it, whether the walk ends well or fails. -/
theorem visitFile_no_overrides (w : Setting) (file : FileId) {s : Session}
    (h : s.symbols.overrides = {}) : (final (visitFile w file s)).symbols.overrides = {} := by
  have hsheds : Sheds s (final (visitFile w file s)) :=
    (visitWithin_sheds (w := w) (w.program.nodes.size + 1) (w.program.root file) s).final
  unfold Sheds at hsheds
  rw [h] at hsheds
  exact hsheds.eq_empty

/-- A module that exports a variable, and a type alias whose two literals are one symbol, so that
the second name it goes by hides the first. -/
def forwardsTwice : Setting := Run.plain
  [.file ⟨"/p/a.ts"⟩ "let x; export { x }; type T = {} | {}", .module ⟨0⟩,
   .declaration ⟨0⟩ .variableDeclaration "x" "x", .symbol "x" .blockScopedVariable,
   .declare ⟨1⟩ ⟨1⟩, .nodeAt ⟨0⟩ .exportDeclaration "export { x }" 0,
   .nodeAt ⟨3⟩ .exportSpecifier "x" 1, .bind ⟨4⟩ ⟨1⟩,
   .declaration ⟨0⟩ .typeAliasDeclaration "type T = {} | {}" "T", .symbol "T" .typeAlias,
   .declare ⟨2⟩ ⟨5⟩, .nodeAt ⟨5⟩ .unionType "{} | {}" 0, .nodeAt ⟨7⟩ .typeLiteral "{}" 0,
   .nodeAt ⟨7⟩ .typeLiteral "{}" 1, .symbol "T" .typeLiteral, .declare ⟨3⟩ ⟨8⟩, .bind ⟨9⟩ ⟨3⟩]

/-- A session over a sink that refuses its eighth element. -/
def refusing : Session :=
  { store :=
      { graph := .ofSink (.memory (fun call => if call = 7 then some (.io "full") else none) 0 #[])
        project := { vertex := ⟨⟨0⟩, .project⟩ } } }

/-- The sink refuses the result set of the type alias, while three overrides are in effect. -/
theorem forwardsTwice_no_overrides : refusing.symbols.overrides = {} ∧
    match visitFile forwardsTwice ⟨0⟩ refusing with
    | .ok _ _        => False
    | .error fault t => fault = .sink (.io "full") ∧ t.symbols.overrides = {} := by
  refine ⟨rfl, ?_⟩
  have hfails : (match visitFile forwardsTwice ⟨0⟩ refusing with
      | .ok _ _        => false
      | .error fault _ => decide (fault = .sink (.io "full"))) = true := by
    decide +kernel
  have hnone := visitFile_no_overrides forwardsTwice ⟨0⟩ (s := refusing) rfl
  cases hwalk : visitFile forwardsTwice ⟨0⟩ refusing with
  | ok a t =>
      rw [hwalk] at hfails
      cases hfails
  | error fault t =>
      rw [hwalk] at hfails hnone
      exact ⟨of_decide_eq_true hfails, hnone⟩

end SymbolGraph.Session
