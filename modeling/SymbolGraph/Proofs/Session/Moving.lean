import SymbolGraph.Proofs.Program.Tree
import SymbolGraph.Proofs.Session.Finding
import SymbolGraph.Proofs.Store.Shutting
import SymbolGraph.Session.Walk

/-!
# Proofs — Session — what a walk does, step by step

A walk *moves* through the nodes of a file.  It gathers at each of them, and when it leaves one it
closes what is local to that node.  In between it asserts and releases: the exports of a file around
all that is below its root, and the names of a type alias around its literals.

* `Session.Moves`: one step of a walk that leaves certain nodes.
* `Session.Proceeds`: an action that moves, or fails with something to blame on a session that was
  moved to.
* `Session.Met`, `Session.Seen`: what a walk has seen to inside a node, and when it has left it.
* `Session.visitWithin_proceeds`: a walk sees to every node.
* `Session.visitFile_ensures`: the walk of a file enters it, moves below its root, and leaves it.
-/

namespace SymbolGraph

/-- The symbols a walk meets at a node: what an identifier denotes, what the name of a document symbol
denotes, and the symbol of a file. -/
inductive Program.Meets (p : Program) (node : NodeId) : SymbolRef → Prop
  | identifier {symbol : SymbolRef} : p.kind node = .identifier → p.symbolAt node = some symbol →
      Meets p node symbol
  | name {name : NodeId} {symbol : SymbolRef} : (p.kind node).isDocumentSymbol = true →
      p.nameOf node = some name → p.symbolAt name = some symbol → Meets p node symbol
  | module {symbol : SymbolRef} : p.kind node = .sourceFile →
      p.fileSymbol (p.fileOf node) = some symbol → Meets p node symbol

namespace Session

open SymbolGraph.Action SymbolGraph.Discipline

variable {α : Type} {w : Setting} {nodes : NodeId → Prop} {here : FileId → Prop} {s t : Session}
  {node : NodeId}

/-- One step of a walk that leaves certain nodes. -/
inductive Moves (w : Setting) (nodes : NodeId → Prop) (s : Session) : Session → Prop
  /-- Something is gathered. -/
  | gathers {t : Session} : Gathers w s t → Moves w nodes s t
  /-- A node is left. -/
  | closes {node : NodeId} {store : Store} : nodes node → s.store.Closes w (some node) store →
      Moves w nodes s { s with store }
  /-- Names are forwarded, or no longer. -/
  | forwards {symbols : Symbols} : s.symbols.Guards w.program symbols →
      Moves w nodes s { s with symbols }
  /-- The exports of a file are asserted, or no longer. -/
  | asserts {root : NodeId} {symbols : Symbols} : nodes root → w.program.kind root = .sourceFile →
      Moves w nodes s { s with symbols }
  /-- What was kept for a file is dropped. -/
  | forgets {lineIndexes : Table FileId LineIndex} {definitions : Table NodeId VertexRef} :
      (∀ file index, lineIndexes.get? file = some index →
        s.lineIndexes.get? file = some index) →
      Moves w nodes s { s with lineIndexes, definitions }

theorem Moves.lasts (h : Moves w nodes s t) : s.store.Lasts t.store := by
  cases h with
  | gathers hstep => exact hstep.lasts
  | closes _ hstep => exact hstep.lasts
  | _ => exact .refl _

theorem Moves.ready (h : Moves w nodes s t) (hs : s.Ready w) : t.Ready w := by
  cases h with
  | gathers hstep => exact hstep.ready hs
  | closes _ hstep => exact ⟨hstep.orderly hs.store, hs.lines⟩
  | forwards => exact ⟨hs.store, hs.lines⟩
  | asserts => exact ⟨hs.store, hs.lines⟩
  | forgets hkept => exact ⟨hs.store, fun file index h => hs.lines file index (hkept file index h)⟩

/-- Any number of steps of a walk. -/
abbrev Travels (w : Setting) (nodes : NodeId → Prop) : Session → Session → Prop :=
  Relation.ReflTransGen (Moves w nodes)

namespace Travels

theorem lasts (h : Travels w nodes s t) : s.store.Lasts t.store := by
  induction h with
  | refl => exact .refl _
  | tail _ hstep ih => exact ih.trans hstep.lasts

/-- Whoever travels arrives ready. -/
theorem ready (h : Travels w nodes s t) (hs : s.Ready w) : t.Ready w := by
  induction h with
  | refl => exact hs
  | tail _ hstep ih => exact hstep.ready ih

end Travels

/-- An advance is a travel. -/
theorem travels_of_advances (h : Advances w s t) : Travels w nodes s t :=
  Relation.ReflTransGen.mono (fun _ _ hstep => Moves.gathers hstep) s t h

/-- Leaving a node is a travel. -/
theorem travels_of_shrinks (hnode : nodes node) {store : Store}
    (h : s.store.Shrinks w (some node) store) : Travels w nodes s { s with store } := by
  induction h with
  | refl => exact .refl
  | tail _ hstep ih => exact ih.tail (.closes hnode hstep)

/-! ### Walking -/

/-- From a session that is ready, a walk moves, or fails with something to blame on a session that
was moved to. -/
def moving (w : Setting) (nodes : NodeId → Prop) (here : FileId → Prop) :
    Discipline Session Fault where
  ready := Ready w
  steps := Travels w nodes
  blames s fault _ := ∃ u, Travels w nodes s u ∧ u.Blames w here fault
  refl _ := .refl
  trans := Relation.ReflTransGen.trans
  keeps hs h := h.ready hs
  carries h hfault := by
    obtain ⟨u, htravels, hblames⟩ := hfault
    exact ⟨u, h.trans htravels, hblames⟩

/-- An action that moves, or fails with something to blame on a session that was moved to. -/
abbrev Proceeds (w : Setting) (nodes : NodeId → Prop) (here : FileId → Prop) (act : Running α)
    (s : Session) (post : α → Session → Prop) : Prop :=
  (moving w nodes here).Follows act s post

/-- What works proceeds. -/
theorem Works.proceeds {act : Running α} {post : α → Session → Prop} (h : Works w here act s post) :
    Proceeds w nodes here act s post :=
  fun hs => Ensures.mono (h hs) (fun _ _ ht => ⟨travels_of_advances ht.1.1, ht.2⟩)
    fun _ _ hfault => ⟨s, .refl, hfault.1⟩

/-- What is blamed does not hang on how tidying up ended. -/
theorem ensures_of_forall {act : Running α} {fails : Prop} (h : fails) :
    Ensures act s (fun _ _ => fails) fun _ _ => fails := by
  unfold Ensures
  cases act s with
  | ok a t => exact h
  | error fault t => exact h

/-- What comes last is done after a success, and after a failure it only has to proceed. -/
theorem proceeds_andThen {act last : Running Unit} {post post' : Session → Prop}
    (h : Proceeds w nodes here act s fun _ t => post t)
    (hlast : ∀ t, post t → Proceeds w nodes here last t fun _ u => post' u) :
    Proceeds w nodes here (Action.andThen act last) s fun _ t => post' t := by
  intro hs
  refine ensures_andThen.mpr (Ensures.mono (h hs) (fun _ t ht => ?_) fun fault t hfault => ?_)
  · exact (hlast t ht.2).after hs ht.1
  · exact ensures_of_forall hfault

/-! ### What is seen to at a node -/

/-- What a walk has seen to once it is inside a node: the symbols that it meets there have records, an
identifier occurs under the record of its symbol, and a file has a document. -/
structure Met (w : Setting) (node : NodeId) (s : Session) : Prop where
  known    : ∀ symbol, w.program.Meets node symbol → s.store.Knows (w.program.key symbol)
  occurs   : ∀ symbol, w.program.kind node = .identifier →
    w.program.symbolAt node = some symbol → ∃ id, s.store.Names id (w.program.key symbol) ∧
      s.store.Occurs w id ⟨w.program.fileOf node, w.program.range node⟩
  document : w.program.kind node = .sourceFile →
    w.program.fileOf node ∈ s.store.documents.keys

/-- What was met stays met. -/
theorem Met.lasts (h : Met w node s) (hlasts : s.store.Lasts t.store) : Met w node t where
  known symbol hmeets := hlasts.knows _ (h.known symbol hmeets)
  occurs symbol hkind hsymbol := by
    obtain ⟨id, hnames, hoccurs⟩ := h.occurs symbol hkind hsymbol
    exact ⟨id, hlasts.names hnames, hlasts.occurs hoccurs⟩
  document hkind := hlasts.keys.subset (h.document hkind)

/-- What a walk has seen to when it has left a node: the document of a file has ended as well. -/
structure Seen (w : Setting) (node : NodeId) (s : Session) : Prop extends Met w node s where
  ended : w.program.kind node = .sourceFile →
    s.store.documents.get? (w.program.fileOf node) = some .cleared

/-- What was seen stays seen. -/
theorem Seen.lasts (h : Seen w node s) (hlasts : s.store.Lasts t.store) : Seen w node t where
  toMet := h.toMet.lasts hlasts
  ended hkind := hlasts.ended _ (h.ended hkind)

/-- **An identifier is recorded**: by a range of its own, or by the definition that it names. -/
theorem visitIdentifier_works (hnode : here (w.program.fileOf node)) :
    Works w here (visitIdentifier w node) s fun _ t => ∀ symbol,
      w.program.symbolAt node = some symbol → ∃ id, t.store.Names id (w.program.key symbol) ∧
        t.store.Occurs w id ⟨w.program.fileOf node, w.program.range node⟩ := by
  unfold visitIdentifier
  dsimp only
  cases hsymbol : w.program.symbolAt node with
  | none => exact follows_pure nofun
  | some symbol =>
      have hlocation : ∀ other, some node = some other → here (w.program.fileOf other) :=
        fun other heq => Option.some.inj heq ▸ hnode
      refine (resolve_works hlocation).bind fun id t _ ht hnames => ?_
      refine (works_store (fun _ => Store.hasInfo_works) here_self).bind fun known u _ _ hknown => ?_
      obtain ⟨_, rfl, -, rfl, r, hr, rfl⟩ := hknown
      -- An occurrence that the record already knows was emitted before.
      split
      · rename_i hinfo
        refine follows_pure fun other heq => ⟨id, Option.some.inj heq ▸ hnames, ?_⟩
        exact ht.store.backed id.index r hr _ (of_decide_eq_true hinfo)
      · refine lineRange_works.bind fun span t₁ _ _ ht₁ => ?_
        refine emitRange_works hnode fun range t₂ hin hshelved hfree hissued hrecords => ?_
        refine (works_store (fun _ => Store.resultSet_works) here_self).bind
          fun hub t₃ _ _ hhub => ?_
        obtain ⟨_, rfl, -, rfl, hhub⟩ := hhub
        refine Follows.bind (works_store (fun _ => Store.next_works hfree hissued)
          here_self).discard fun _ t₄ _ _ hlinked => ?_
        obtain ⟨store, rfl, hgains, -, hnext⟩ := hlinked
        have hoccurs : store.Occurs w id ⟨w.program.fileOf node, w.program.range node⟩ :=
          ⟨range.id, .reference (w.program.textOf node), hub,
            hgains.lasts.elements.subset (ht₁.2.2 ▸ hin), hgains.lasts.shelved hshelved,
            hgains.lasts.hub? hhub, hnext⟩
        have hnamed : store.Names id (w.program.key symbol) := by
          refine hgains.lasts.names ?_
          rw [Store.Names, hrecords, ht₁.1]
          exact hnames
        refine (works_store (fun _ => Store.addReference_works hnode) here_self).mono
          fun _ t₅ ht₅ other heq => ?_
        obtain ⟨store', rfl, hgains', -⟩ := ht₅
        obtain rfl := Option.some.inj heq
        exact ⟨id, hgains'.lasts.names hnamed, hgains'.lasts.occurs hoccurs⟩

/-- A symbol that was resolved is known. -/
theorem discover_works {symbol : SymbolRef} {location : Option NodeId}
    (hlocation : ∀ node, location = some node → here (w.program.fileOf node)) :
    Works w here (discard (Session.resolve w symbol location)) s fun _ t =>
      t.store.Knows (w.program.key symbol) := by
  intro hs
  refine ensures_discard.mpr (Ensures.mono (resolve_works hlocation hs) (fun id t ht => ?_)
    fun _ _ hfault => hfault)
  exact ⟨ht.1, ht.2.knows (ht.1.1.ready hs).store.keyed⟩

/-! ### Entering a node -/

section Inside

variable {walk : Running Unit} {post : Session → Prop}

/-- A walk goes on inside a document symbol, or as it is where the name has no definition range. -/
theorem insideNamed_proceeds {file : FileId} (name : NodeId) (hfile : here file)
    (hpost : ∀ s t, Travels w nodes s t → post s → post t)
    (hwalk : ∀ t, Proceeds w nodes here walk t fun _ u => post u) :
    Proceeds w nodes here (insideNamed w file name walk) s fun _ t => post t := by
  unfold insideNamed
  refine follows_get ?_
  cases s.definitions.get? name with
  | none => exact hwalk s
  | some range =>
      refine Follows.bind
        (works_store (fun _ => Store.beginContainer_works hfile) here_self).proceeds
        fun _ t _ _ _ => ?_
      refine proceeds_andThen (hwalk t) fun u hu => ?_
      exact Follows.imp (works_store (fun _ => Store.endContainer_works hfile) here_self).proceeds
        fun _ v htravels _ => hpost u v htravels hu

/-- **A document symbol is entered**, after its name was resolved. -/
theorem insideDocumentSymbol_proceeds (hnode : here (w.program.fileOf node))
    (hname : ∀ name, w.program.nameOf node = some name → here (w.program.fileOf name))
    (hpost : ∀ s t, Travels w nodes s t → post s → post t)
    (hwalk : ∀ t, Proceeds w nodes here walk t fun _ u => post u) :
    Proceeds w nodes here (insideDocumentSymbol w node walk) s fun _ t => post t ∧
      ∀ name symbol, w.program.nameOf node = some name → w.program.symbolAt name = some symbol →
        t.store.Knows (w.program.key symbol) := by
  unfold insideDocumentSymbol
  cases hnamed : w.program.nameOf node with
  | none => exact (hwalk s).mono fun _ _ ht => ⟨ht, fun _ _ heq => by cases heq⟩
  | some name =>
      dsimp only
      cases hsymbol : w.program.symbolAt name with
      | none =>
          refine (insideNamed_proceeds name hnode hpost hwalk).mono
            fun _ _ ht => ⟨ht, fun other symbol hother hdenotes => ?_⟩
          rw [← Option.some.inj hother, hsymbol] at hdenotes
          cases hdenotes
      | some symbol =>
          have hlocation : ∀ other, some name = some other → here (w.program.fileOf other) :=
            fun other heq => hname other (heq ▸ hnamed)
          refine (discover_works hlocation).proceeds.bind fun _ t _ _ hknown => ?_
          refine (insideNamed_proceeds name hnode hpost hwalk).imp
            fun _ u htravels hu => ⟨hu, fun other symbol' hother hdenotes => ?_⟩
          rw [← Option.some.inj hother, hsymbol] at hdenotes
          exact Option.some.inj hdenotes ▸ htravels.lasts.knows _ hknown

/-- Names are forwarded around a walk. -/
theorem underForwards_proceeds {overrides : List Override} (honly : Symbols.OnlyForwards overrides)
    (hpost : ∀ s t, Travels w nodes s t → post s → post t)
    (hwalk : Proceeds w nodes here walk s fun _ t => post t) :
    Proceeds w nodes here (underOverrides overrides walk) s fun _ t => post t := by
  refine proceeds_andThen hwalk fun t ht => .forM post overrides.reverse (fun override hmem u hu => ?_) ht
  intro _
  have hmoves : Moves w nodes u _ :=
    .forwards (Symbols.release_guards (honly override (List.mem_reverse.mp hmem)))
  exact ensures_onPartSafely.mpr ⟨.single hmoves, hpost u _ (.single hmoves) hu⟩

theorem assertForwards_proceeds : Proceeds w nodes here (assertForwards w node) s
    fun overrides _ => Symbols.OnlyForwards overrides := by
  unfold assertForwards
  dsimp only
  split
  · exact follows_pure nofun
  · intro _
    obtain ⟨honly, hguards⟩ := Symbols.forward_guards
    exact ensures_onPartSafely.mpr ⟨.single (.forwards hguards), honly⟩

/-! ### Files -/

/-- A file is entered at its root: its document is made, and what a module exports is asserted. -/
inductive Enters (w : Setting) (root : NodeId) (s : Session) : Session → Prop
  | mk {store : Store} {symbols : Symbols} : s.store.Gains w store →
      (∀ module, w.program.fileSymbol (w.program.fileOf root) = some module →
        symbols = s.symbols.assertingAll w.program module (w.program.exportTargets root)) →
      Enters w root s { s with store, symbols }

theorem Enters.ready {root : NodeId} (h : Enters w root s t) (hs : s.Ready w) : t.Ready w := by
  cases h with
  | mk hgains => exact ⟨hgains.orderly hs.store, hs.lines⟩

theorem Enters.travels {root : NodeId} (h : Enters w root s t) (hnode : nodes root)
    (hroot : w.program.kind root = .sourceFile) : Travels w nodes s t := by
  cases h with
  | mk hgains => exact (travels_of_advances (advances_store hgains)).tail (.asserts hnode hroot)

/-- By induction on the targets: a file asserts its symbol as the parent of each of them. -/
theorem assertExports_ensures {module : SymbolRef} : ∀ (targets : List SymbolRef) (s : Session),
    Ensures (assertExports w module targets) s (fun _ t => t = { s with
      symbols := s.symbols.assertingAll w.program module targets }) fun _ _ => False
  | [], _ => rfl
  | target :: targets, s => by
      refine ensures_bind.mpr (ensures_onPartSafely.mpr (ensures_bind.mpr
        (ensures_onPartSafely.mpr (ensures_bind.mpr ?_))))
      exact (assertExports_ensures targets _).mono (fun _ t ht => ensures_pure.mpr ht)
        fun _ _ hfalse => hfalse

theorem releaseAll_ensures (overrides : List Override) : Ensures
    (overrides.forM fun override => (Symbols.release override : Running Unit)) s
    (fun _ t => ∃ symbols, t = { s with symbols }) fun _ _ => False := by
  refine Ensures.forM (fun _ t => ∃ symbols, t = { s with symbols }) (fun override _ t ht => ?_)
    ⟨s.symbols, rfl⟩
  obtain ⟨symbols, rfl⟩ := ht
  exact ensures_onPartSafely.mpr ⟨_, rfl⟩

/-- At a file only its symbol is met. -/
theorem met_of_file (hkind : w.program.kind node = .sourceFile)
    (hkeys : w.program.fileOf node ∈ s.store.documents.keys)
    (hknown : ∀ symbol, w.program.fileSymbol (w.program.fileOf node) = some symbol →
      s.store.Knows (w.program.key symbol)) : Met w node s := by
  refine ⟨fun symbol hmeets => ?_, fun symbol hkind' => (nomatch hkind.symm.trans hkind'),
    fun _ => hkeys⟩
  cases hmeets with
  | module _ hsymbol => exact hknown symbol hsymbol
  | identifier hkind' => exact nomatch hkind.symm.trans hkind'
  | name hkind' => exact nomatch hkind ▸ hkind'

/-- **A file is walked below its root** after it was entered, and then its exports are no longer
asserted. -/
theorem insideSourceFile_ensures {root : NodeId} (hs : s.Ready w)
    (hkind : w.program.kind root = .sourceFile) (hnode : here (w.program.fileOf root))
    (hwalk : ∀ t, Proceeds w nodes here walk t fun _ u => post u) :
    Ensures (insideSourceFile w root walk) s
      (fun _ t => ∃ u v symbols, Enters w root s u ∧ Travels w nodes u v ∧ t = { v with symbols } ∧
        post v ∧ Met w root v)
      fun fault _ => s.Blames w here fault ∨
        ∃ u v, Enters w root s u ∧ Travels w nodes u v ∧ v.Blames w here fault := by
  unfold insideSourceFile
  dsimp only
  refine ensures_bind.mpr (ensures_discard.mpr (Ensures.mono
    (works_store (fun _ => Store.document_works hnode) here_self hs) (fun d t ht => ?_)
    fun fault t hfault => .inl hfault.1))
  obtain ⟨hsteps, store, rfl, hgains, hlive, -⟩ := ht
  have hkeys : w.program.fileOf root ∈ store.documents.keys := Table.mem_keys_iff.mpr ⟨_, hlive⟩
  -- A file without a symbol asserts nothing and goes straight to the walk.
  cases hsymbol : w.program.fileSymbol (w.program.fileOf root) with
  | none =>
      have henters : Enters w root s { s with store } :=
        .mk hgains fun module hmodule => nomatch hsymbol.symm.trans hmodule
      refine Ensures.mono (hwalk _ (henters.ready hs)) (fun _ t ht => ?_) fun fault t hfault => ?_
      · refine ⟨_, t, t.symbols, henters, ht.1, rfl, ht.2, met_of_file hkind ?_ ?_⟩
        · exact ht.1.lasts.keys.subset hkeys
        · exact fun module hmodule => nomatch hsymbol.symm.trans hmodule
      · obtain ⟨v, htravels, hblames⟩ := hfault
        exact .inr ⟨_, v, henters, htravels, hblames⟩
  | some module =>
      refine ensures_bind.mpr ((assertExports_ensures _ _).mono (fun overrides t ht => ?_)
        fun _ _ hfalse => hfalse.elim)
      subst ht
      have henters : Enters w root s { s with
          store, symbols := s.symbols.assertingAll w.program module
            (w.program.exportTargets root) } := by
        refine .mk hgains fun module' hmodule => ?_
        rw [Option.some.inj (hsymbol.symm.trans hmodule)]
      have hlocation : ∀ node, some root = some node → here (w.program.fileOf node) :=
        fun node heq => Option.some.inj heq ▸ hnode
      have hinside (u : Session) : Proceeds w nodes here (do
          discard (Session.resolve w module (some root))
          walk) u fun _ v => post v ∧ v.store.Knows (w.program.key module) :=
        (discover_works hlocation).proceeds.bind fun _ v _ _ hknown => (hwalk v).imp
          fun _ v' htravels hv => ⟨hv, htravels.lasts.knows _ hknown⟩
      -- The exports are released whether the walk succeeds or fails, so both ends go through
      -- `releaseAll`.
      refine ensures_andThen.mpr (Ensures.mono (hinside _ (henters.ready hs)) (fun _ v hv => ?_)
        fun fault v hfault => ensures_of_forall ?_)
      · refine (releaseAll_ensures _).mono (fun _ t ht => ?_) fun _ _ hfalse => hfalse.elim
        obtain ⟨symbols, rfl⟩ := ht
        refine ⟨_, v, symbols, henters, hv.1, rfl, hv.2.1, met_of_file hkind ?_ ?_⟩
        · exact hv.1.lasts.keys.subset hkeys
        · exact fun module' hmodule => Option.some.inj (hsymbol.symm.trans hmodule) ▸ hv.2.2
      · obtain ⟨v, htravels, hblames⟩ := hfault
        exact .inr ⟨_, v, henters, htravels, hblames⟩

/-- A file is entered, walked under its overrides, and met. -/
theorem insideSourceFile_proceeds (hnode : nodes node) (hkind : w.program.kind node = .sourceFile)
    (hhere : here (w.program.fileOf node))
    (hpost : ∀ s t, Travels w nodes s t → post s → post t)
    (hwalk : ∀ t, Proceeds w nodes here walk t fun _ u => post u) :
    Proceeds w nodes here (insideSourceFile w node walk) s fun _ t => post t ∧ Met w node t := by
  intro hs
  refine (insideSourceFile_ensures hs hkind hhere hwalk).mono (fun _ t ht => ?_)
    fun fault t hfault => ?_
  · obtain ⟨u, v, symbols, henters, htravels, rfl, hv, hmet⟩ := ht
    have hdone := (henters.travels hnode hkind).trans htravels
    have hasserts : Moves w nodes v { v with symbols } := .asserts hnode hkind
    exact ⟨hdone.tail hasserts, hpost v _ (.single hasserts) hv, hmet.lasts hasserts.lasts⟩
  · rcases hfault with hblames | ⟨u, v, henters, htravels, hblames⟩
    · exact ⟨s, .refl, hblames⟩
    · exact ⟨v, (henters.travels hnode hkind).trans htravels, hblames⟩

/-- At a node that is no file and no identifier, only the name of a document symbol is met. -/
theorem met_of_name (hfile : w.program.kind node ≠ .sourceFile)
    (hidentifier : w.program.kind node ≠ .identifier)
    (hname : (w.program.kind node).isDocumentSymbol = true → ∀ name symbol,
      w.program.nameOf node = some name → w.program.symbolAt name = some symbol →
        s.store.Knows (w.program.key symbol)) : Met w node s := by
  refine ⟨fun symbol hmeets => ?_, fun symbol hkind => absurd hkind hidentifier,
    fun hkind => absurd hkind hfile⟩
  cases hmeets with
  | name hkind hnamed hsymbol => exact hname hkind _ symbol hnamed hsymbol
  | identifier hkind => exact absurd hkind hidentifier
  | module hkind => exact absurd hkind hfile

/-- **A node is entered**: what is there is seen to, and the walk goes on below it. -/
theorem inside_proceeds (hnode : nodes node) (hhere : here (w.program.fileOf node))
    (hname : ∀ name, w.program.nameOf node = some name → here (w.program.fileOf name))
    (hpost : ∀ s t, Travels w nodes s t → post s → post t)
    (hwalk : ∀ t, Proceeds w nodes here walk t fun _ u => post u) :
    Proceeds w nodes here (inside w node walk) s fun _ t => post t ∧ Met w node t := by
  have hsymbol (t : Session) (hfile : w.program.kind node ≠ .sourceFile)
      (hidentifier : w.program.kind node ≠ .identifier) : Proceeds w nodes here
      (insideDocumentSymbol w node walk) t fun _ u => post u ∧ Met w node u :=
    (insideDocumentSymbol_proceeds hhere hname hpost hwalk).mono fun _ _ hu =>
      ⟨hu.1, met_of_name hfile hidentifier fun _ => hu.2⟩
  have hboth (t u : Session) (htravels : Travels w nodes t u) (ht : post t ∧ Met w node t) :
      post u ∧ Met w node u :=
    ⟨hpost t u htravels ht.1, ht.2.lasts htravels.lasts⟩
  unfold inside
  split
  · rename_i hkind
    exact insideSourceFile_proceeds hnode hkind hhere hpost hwalk
  · rename_i hkind
    refine (visitIdentifier_works hhere).proceeds.bind fun _ t _ ht hoccurs => ?_
    refine (hwalk t).imp fun _ u htravels hu => ⟨hu, Met.lasts ?_ htravels.lasts⟩
    refine ⟨fun symbol hmeets => ?_, fun symbol _ => hoccurs symbol,
      fun hkind' => nomatch hkind.symm.trans hkind'⟩
    -- An identifier meets its own symbol; it is neither a source file nor a declaration with a
    -- name.
    cases hmeets with
    | identifier _ hdenotes =>
        obtain ⟨id, hnames, -⟩ := hoccurs symbol hdenotes
        exact hnames.knows ht.store.keyed
    | module hkind' => exact nomatch hkind.symm.trans hkind'
    | name hkind' => exact nomatch hkind ▸ hkind'
  · rename_i hkind
    refine assertForwards_proceeds.bind fun overrides t _ _ honly => ?_
    exact underForwards_proceeds honly hboth (hsymbol t (by simp [hkind]) (by simp [hkind]))
  · rename_i hfile hidentifier _
    split
    · exact hsymbol s hfile hidentifier
    · rename_i hplain
      refine (hwalk s).mono fun _ t ht => ⟨ht, met_of_name hfile hidentifier fun hkind => ?_⟩
      exact absurd hkind hplain

end Inside

/-! ### Leaving a node -/

/-- What is local to a node is closed, and what was only kept for a file may be dropped.  The document
of a file had not ended before. -/
inductive Leaves (w : Setting) (node : NodeId) (s : Session) : Session → Prop
  | mk {store : Store} {lineIndexes : Table FileId LineIndex}
      {definitions : Table NodeId VertexRef} : s.store.Shrinks w (some node) store →
      (∀ file index, lineIndexes.get? file = some index →
        s.lineIndexes.get? file = some index) →
      (w.program.kind node = .sourceFile →
        s.store.documents.get? (w.program.fileOf node) ≠ some .cleared ∧
          (w.program.fileOf node ∈ s.store.documents.keys →
            store.documents.get? (w.program.fileOf node) = some .cleared)) →
      Leaves w node s { s with store, lineIndexes, definitions }

theorem Leaves.travels (h : Leaves w node s t) (hnode : nodes node) : Travels w nodes s t := by
  cases h with
  | mk hshrinks hkept => exact (travels_of_shrinks hnode hshrinks).tail (.forgets hkept)

theorem blames_of_isOwn {fault : Fault} (h : fault.IsOwn) : s.Blames w here fault :=
  blames_of_excuses (Store.excuses_of_isOwn h) here_self

/-- **A node is left.**  Only a document that has ended cannot end again. -/
theorem leave_ensures (hs : s.Ready w) (hhere : here (w.program.fileOf node)) :
    Ensures (leave w node) s (fun _ t => Leaves w node s t) fun fault _ => s.Blames w here fault := by
  refine ensures_bind.mpr (ensures_onPart.mpr (Ensures.mono (Store.nodeProcessed_shuts hs.store)
    (fun _ store hstore => ?_) fun fault _ hfault => blames_of_isOwn hfault))
  obtain ⟨hshrinks, hdocuments⟩ := hstore
  split
  · rename_i hkind
    by_cases hcleared : store.documents.get? (w.program.fileOf node) = some .cleared
    · refine ensures_bind.mpr (ensures_onPart.mpr ((Store.endDocument_cleared hcleared).mono
        (fun _ _ hfalse => hfalse.elim) fun fault _ hfault => ?_))
      rw [hfault]
      exact ⟨_, .inl hhere, hdocuments ▸ hcleared⟩
    · have hleaving : ∀ other, some node = some other → w.program.kind other = .sourceFile ∧
          w.program.fileOf node = w.program.fileOf other :=
        fun other heq => Option.some.inj heq ▸ ⟨hkind, rfl⟩
      refine ensures_bind.mpr (ensures_onPart.mpr (Ensures.mono
        ((Store.endDocument_shuts hleaving hcleared).after hs.store hshrinks)
        (fun _ store' hstore' => ?_) fun fault _ hfault => blames_of_isOwn hfault))
      rw [hdocuments] at hcleared hstore'
      refine ensures_modify.mpr (.mk hstore'.1 (fun file index hindex => ?_)
        fun _ => ⟨hcleared, hstore'.2.2⟩)
      rw [Table.get?_erase] at hindex
      split at hindex
      · cases hindex
      · exact hindex
  · rename_i hkind
    exact ensures_pure.mpr (.mk hshrinks (fun _ _ hkept => hkept) fun hkind' => absurd hkind' hkind)

/-- A node is left once it was met, and then it was seen. -/
theorem leave_proceeds (hnode : nodes node) (hhere : here (w.program.fileOf node))
    (hmet : Met w node s) : Proceeds w nodes here (leave w node) s fun _ t => Seen w node t := by
  refine fun hs => (leave_ensures hs hhere).mono (fun _ t hleaves => ?_)
    fun _ _ hblames => ⟨s, .refl, hblames⟩
  have htravels : Travels w nodes s t := hleaves.travels hnode
  refine ⟨htravels, hmet.lasts htravels.lasts, fun hkind => ?_⟩
  cases hleaves with
  | mk _ _ hended => exact (hended hkind).2 (hmet.document hkind)

/-! ### Walking a tree -/

/-- **A walk sees to every node.** -/
theorem visitWithin_proceeds : ∀ (fuel : Nat) (node : NodeId) {s : Session},
    (∀ below, w.program.Under node below → nodes below) →
    (∀ below, w.program.Under node below → here (w.program.fileOf below) ∧
      ∀ name, w.program.nameOf below = some name → here (w.program.fileOf name)) →
    Proceeds w nodes here (visitWithin w fuel node) s fun _ t =>
      ∀ below, w.program.Under node below → Seen w below t
  | 0, _, _, _, _ => follows_throw ⟨_, .refl, trivial⟩
  | fuel + 1, node, s, hnodes, hhere => by
      have hself : w.program.Under node node := .refl
      have hchild {child below : NodeId} (hmem : child ∈ w.program.children node)
          (hunder : w.program.Under child below) : w.program.Under node below := .head hmem hunder
      have hlasts (child : NodeId) (s t : Session) (htravels : Travels w nodes s t)
          (hseen : ∀ below, w.program.Under child below → Seen w below s) :
          ∀ below, w.program.Under child below → Seen w below t :=
        fun below hunder => (hseen below hunder).lasts htravels.lasts
      have hwalk (t : Session) : Proceeds w nodes here
          ((w.program.children node).forM (visitWithin w fuel)) t fun _ u =>
            ∀ child ∈ w.program.children node, ∀ below, w.program.Under child below →
              Seen w below u :=
        .forM_all hlasts _ fun child hmem u => visitWithin_proceeds fuel child
          (fun below hunder => hnodes below (hchild hmem hunder))
          fun below hunder => hhere below (hchild hmem hunder)
      refine (inside_proceeds (hnodes node hself) (hhere node hself).1 (hhere node hself).2
        (fun s t htravels hseen child hmem => hlasts child s t htravels (hseen child hmem))
        hwalk).bind fun _ t _ _ hseen => ?_
      refine (leave_proceeds (hnodes node hself) (hhere node hself).1 hseen.2).imp
        fun _ u htravels hleft below hunder => ?_
      -- The node itself is seen when it is left, everything below it by the walk of its child.
      rcases Program.under_iff.mp hunder with rfl | ⟨child, hmem, hbelow⟩
      · exact hleft
      · exact (hseen.1 child hmem below hbelow).lasts htravels.lasts

theorem Blames.congr {fault : Fault} (h : s.Blames w here fault) (hstore : t.store = s.store) :
    t.Blames w here fault := by
  cases fault with
  | documentCleared | partitionCleared =>
      obtain ⟨file, hfile, hcleared⟩ := h
      refine ⟨file, hfile.imp_right fun hunmet => ?_, hstore ▸ hcleared⟩
      rw [Undiscovered, hstore]
      exact hunmet
  | recordCleared key =>
      show t.store.cache.get? key = some .cleared
      rw [hstore]
      exact h
  | _ => trivial

/-- **The walk of a file** enters it at its root, moves through what is below, and leaves it when it
has seen to all of that.  What goes wrong is blamed on the session before, or on one between entering
and leaving. -/
theorem visitFile_ensures (here : FileId → Prop) {file : FileId} (hs : s.Ready w)
    (hkind : w.program.kind (w.program.root file) = .sourceFile)
    (hhere : ∀ below, w.program.Under (w.program.root file) below →
      here (w.program.fileOf below) ∧
        ∀ name, w.program.nameOf below = some name → here (w.program.fileOf name)) :
    Ensures (visitFile w file) s
      (fun _ t => ∃ u v symbols, Enters w (w.program.root file) s u ∧
        Travels w (w.program.Below (w.program.root file)) u v ∧
        Leaves w (w.program.root file) { v with symbols } t ∧ Met w (w.program.root file) v ∧
        ∀ below, w.program.Below (w.program.root file) below → Seen w below v)
      fun fault _ => s.Blames w here fault ∨ ∃ u v, Enters w (w.program.root file) s u ∧
        Travels w (w.program.Below (w.program.root file)) u v ∧ v.Blames w here fault := by
  have hself : w.program.Under (w.program.root file) (w.program.root file) := .refl
  have hwalk (t : Session) : Proceeds w (w.program.Below (w.program.root file)) here
      ((w.program.children (w.program.root file)).forM (visitWithin w w.program.nodes.size)) t
      fun _ u => ∀ child ∈ w.program.children (w.program.root file), ∀ below,
        w.program.Under child below → Seen w below u :=
    .forM_all (fun _ _ _ htravels hseen below hunder => (hseen below hunder).lasts htravels.lasts) _
      fun child hmem u => visitWithin_proceeds _ child (fun below hunder => ⟨child, hmem, hunder⟩)
        fun below hunder => hhere below (.head hmem hunder)
  unfold visitFile visitWithin inside
  rw [hkind]
  refine ensures_bind.mpr ((insideSourceFile_ensures hs hkind (hhere _ hself).1 hwalk).mono
    (fun _ t ht => ?_) fun _ _ hfault => hfault)
  obtain ⟨u, v, symbols, henters, htravels, rfl, hseen, hmet⟩ := ht
  have hready : Ready w { v with symbols } := by
    have hv := htravels.ready (henters.ready hs)
    exact ⟨hv.store, hv.lines⟩
  refine (leave_ensures hready (hhere _ hself).1).mono (fun _ t ht => ?_) fun fault _ hblames => ?_
  · refine ⟨u, v, symbols, henters, htravels, ht, hmet, fun below hbelow => ?_⟩
    obtain ⟨child, hmem, hunder⟩ := hbelow
    exact hseen child hmem below hunder
  · exact .inr ⟨u, v, henters, htravels, hblames.congr rfl⟩

end Session

end SymbolGraph
