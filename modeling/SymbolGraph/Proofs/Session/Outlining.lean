import SymbolGraph.Proofs.Program.Outline
import SymbolGraph.Proofs.Session.Moving
import SymbolGraph.Proofs.Session.Skirting

/-!
# Proofs — Session — a walk grows the outline of its file

The walk enters a node, goes on below it, and leaves it.  On entering a declaration it looks for the
definition range of its name, and if there is one it opens a container that it closes on leaving.  So
what the walk of a tree adds to the outline of its file, whatever containers are open, is the outline of
the tree.

* `Session.enter`: entering a node, up to where the walk goes on below it.
* `Session.symbolRange`: the definition range that a declaration is opened for.
* `Session.inside_plants`: what is grown between entering a node and leaving it.
* `Session.entries`: the nodes that a walk enters, each with the session once it was entered.
* `Session.visitWithin_plants`: the walk of a tree grows its outline.
-/

namespace SymbolGraph.Session

open SymbolGraph.Action

variable {w : Setting} {s t u : Session} {node : NodeId} {file : FileId}

/-! ### Entering a node -/

/-- The definition range that a declaration of the document symbol tree is opened for: that of its
name. -/
def symbolRange (w : Setting) (node : NodeId) (s : Session) : Option ElementId :=
  if (w.program.kind node).isDocumentSymbol then
    ((w.program.nameOf node).bind s.definitions.get?).map VertexRef.id
  else none

/-- Open a container of a file for the definition range of a name, if there is one. -/
def openNamed (w : Setting) (file : FileId) (name : NodeId) : Running Unit := do
  match ← definitionRange name with
  | none       => return ()
  | some range => Store.beginContainer w file range.id

/-- Look for the definition range of the name of a declaration, and open a container for it. -/
def openSymbol (w : Setting) (declaration : NodeId) : Running Unit := do
  match w.program.nameOf declaration with
  | none      => return ()
  | some name =>
      if let some symbol := w.program.symbolAt name then
        discard (resolve w symbol (some name))
      openNamed w (w.program.fileOf declaration) name

/-- Assert what a module exports and make its own record. -/
def enterModule (w : Setting) (root : NodeId) (module : SymbolRef) : Running Unit := do
  discard (assertExports w module (w.program.exportTargets root))
  discard (resolve w module (some root))

/-- Enter the root of a file: its document is made. -/
def enterSourceFile (w : Setting) (root : NodeId) : Running Unit := do
  discard (Store.document w (w.program.fileOf root))
  match w.program.fileSymbol (w.program.fileOf root) with
  | none        => return ()
  | some module => enterModule w root module

/-- Enter a node, up to where the walk goes on below it. -/
def enter (w : Setting) (node : NodeId) : Running Unit := do
  match w.program.kind node with
  | .sourceFile           => enterSourceFile w node
  | .identifier           => visitIdentifier w node
  | .typeAliasDeclaration => do
      discard (assertForwards w node)
      openSymbol w node
  | kind                  => if kind.isDocumentSymbol then openSymbol w node else return ()

section Inside

variable {walk : Running Unit}

theorem symbolRange_of_name {name : NodeId} (hkind : (w.program.kind node).isDocumentSymbol = true)
    (hname : w.program.nameOf node = some name) :
    symbolRange w node s = (s.definitions.get? name).map VertexRef.id := by
  unfold symbolRange
  rw [if_pos hkind, hname]
  rfl

/-- What is grown once the definition range of the name of a declaration was looked for. -/
theorem insideNamed_plants {name : NodeId} (hkind : (w.program.kind node).isDocumentSymbol = true)
    (hname : w.program.nameOf node = some name)
    (h : insideNamed w (w.program.fileOf node) name walk s = .ok () u) :
    ∃ t v, openNamed w (w.program.fileOf node) name s = .ok () t ∧ walk t = .ok () v ∧
      ∀ forest, t.store.Plants (w.program.fileOf node) forest v.store →
        s.store.Plants (w.program.fileOf node) (SymbolTree.wrap (symbolRange w node t) forest)
          u.store := by
  have hrun {β : Type} (rest : Option VertexRef → Running β) :
      (definitionRange name >>= rest) s = rest (s.definitions.get? name) s := rfl
  unfold insideNamed at h
  unfold openNamed
  rw [hrun] at h ⊢
  cases hfound : s.definitions.get? name with
  | none =>
      rw [hfound] at h
      refine ⟨s, u, rfl, h, fun forest hforest => ?_⟩
      rw [symbolRange_of_name hkind hname, hfound]
      exact hforest
  | some range =>
      rw [hfound] at h
      obtain ⟨_, t, hbegin, hinside⟩ := bind_eq_ok.mp h
      obtain ⟨v, hwalk, hend⟩ := andThen_eq_ok.mp hinside
      refine ⟨t, v, hbegin, hwalk, fun forest hforest => ?_⟩
      obtain ⟨begun, hbegun, rfl⟩ := onPart_eq_ok.mp hbegin
      obtain ⟨ended, hended, rfl⟩ := onPart_eq_ok.mp hend
      have hrange : symbolRange w node { s with store := begun } = some range.id := by
        rw [symbolRange_of_name hkind hname]
        exact congrArg (Option.map VertexRef.id) hfound
      rw [hrange]
      exact hforest.around hbegun hended

/-- **What is grown for a declaration** between entering it and leaving it: what is grown below it, in a
tree of its own if there is a definition range for it. -/
theorem insideDocumentSymbol_plants (hkind : (w.program.kind node).isDocumentSymbol = true)
    (h : insideDocumentSymbol w node walk s = .ok () u) :
    ∃ t v, openSymbol w node s = .ok () t ∧ walk t = .ok () v ∧
      ∀ forest, t.store.Plants (w.program.fileOf node) forest v.store →
        s.store.Plants (w.program.fileOf node) (SymbolTree.wrap (symbolRange w node t) forest)
          u.store := by
  unfold insideDocumentSymbol at h
  unfold openSymbol
  cases hname : w.program.nameOf node with
  | none =>
      rw [hname] at h
      refine ⟨s, u, rfl, h, fun forest hforest => ?_⟩
      unfold symbolRange
      rw [if_pos hkind, hname]
      exact hforest
  | some name =>
      rw [hname] at h
      dsimp only at h ⊢
      cases hsymbol : w.program.symbolAt name with
      | none =>
          rw [hsymbol] at h
          exact insideNamed_plants hkind hname h
      | some symbol =>
          rw [hsymbol] at h
          obtain ⟨_, m, hresolve, hrest⟩ := bind_eq_ok.mp h
          obtain ⟨t, v, hopen, hwalk, hplants⟩ :=
            insideNamed_plants hkind hname hrest
          refine ⟨t, v, bind_eq_ok.mpr ⟨_, m, hresolve, hopen⟩, hwalk, fun forest hforest => ?_⟩
          have hskirts : s.Skirts m := ((resolve_skirts symbol (some name)).discard s).of_ok hresolve
          exact (Store.Skirts.plants hskirts).trans (hplants forest hforest)

/-- A walk under overrides, which are released at its end. -/
theorem underOverrides_eq_ok {overrides : List Override}
    (h : underOverrides overrides walk s = .ok () u) : ∃ v, walk s = .ok () v ∧ v.Skirts u := by
  obtain ⟨v, hwalk, hrelease⟩ := andThen_eq_ok.mp h
  exact ⟨v, hwalk, (Stays.forM (fun override _ => symbols_skirts (Symbols.release override)) v).of_ok
    hrelease⟩

/-- The root of a file is entered and left without a word about symbols. -/
theorem insideSourceFile_skirts (h : insideSourceFile w node walk s = .ok () u) :
    ∃ t v, enterSourceFile w node s = .ok () t ∧ walk t = .ok () v ∧ s.Skirts t ∧ v.Skirts u := by
  unfold insideSourceFile at h
  unfold enterSourceFile
  obtain ⟨_, m, hdocument, h⟩ := bind_eq_ok.mp h
  have hmade : s.Skirts m :=
    (Stays.discard (store_skirts (Store.document_skirts (w.program.fileOf node))) s).of_ok hdocument
  cases hmodule : w.program.fileSymbol (w.program.fileOf node) with
  | none =>
      simp only [hmodule] at h
      exact ⟨m, u, bind_eq_ok.mpr ⟨_, m, hdocument, rfl⟩, h, hmade, refl_of Skirts u⟩
  | some module =>
      simp only [hmodule] at h
      obtain ⟨overrides, m', hassert, h⟩ := bind_eq_ok.mp h
      obtain ⟨v, h, hreleased⟩ := underOverrides_eq_ok h
      obtain ⟨_, t, hresolve, hwalk⟩ := bind_eq_ok.mp h
      have hasserted : m.Skirts m' := (assertExports_skirts _ _ m).of_ok hassert
      have hresolved : m'.Skirts t := ((resolve_skirts _ _).discard m').of_ok hresolve
      have henter : enterModule w node module m = .ok () t :=
        bind_eq_ok.mpr ⟨(), m', discard_eq_ok.mpr ⟨overrides, hassert⟩, hresolve⟩
      exact ⟨t, v, bind_eq_ok.mpr ⟨_, m, hdocument, henter⟩, hwalk,
        trans_of Skirts (trans_of Skirts hmade hasserted) hresolved, hreleased⟩

/-- A node that is neither the root of a file nor an identifier nor a type alias. -/
theorem inside_other (hsource : w.program.kind node ≠ .sourceFile)
    (hidentifier : w.program.kind node ≠ .identifier)
    (halias : w.program.kind node ≠ .typeAliasDeclaration) : inside w node walk =
      if (w.program.kind node).isDocumentSymbol then insideDocumentSymbol w node walk else walk := by
  unfold inside
  split
  · contradiction
  · contradiction
  · contradiction
  · rfl

@[inherit_doc inside_other]
theorem enter_other (hsource : w.program.kind node ≠ .sourceFile)
    (hidentifier : w.program.kind node ≠ .identifier)
    (halias : w.program.kind node ≠ .typeAliasDeclaration) : enter w node =
      if (w.program.kind node).isDocumentSymbol then openSymbol w node else pure () := by
  unfold enter
  split
  · contradiction
  · contradiction
  · contradiction
  · rfl

/-- **What is grown between entering a node and leaving it**: what is grown below it, in a tree of its
own if the node is opened. -/
theorem inside_plants (h : inside w node walk s = .ok () u) :
    ∃ t v, enter w node s = .ok () t ∧ walk t = .ok () v ∧
      ∀ forest, t.store.Plants (w.program.fileOf node) forest v.store →
        s.store.Plants (w.program.fileOf node) (SymbolTree.wrap (symbolRange w node t) forest)
          u.store := by
  -- A node that opens no container adds the forest of its children as it is.
  have hplain {t v : Session} (hkind : (w.program.kind node).isDocumentSymbol = false)
      (hbefore : s.Skirts t) (hafter : v.Skirts u) (forest : List SymbolTree)
      (hforest : t.store.Plants (w.program.fileOf node) forest v.store) :
      s.store.Plants (w.program.fileOf node) (SymbolTree.wrap (symbolRange w node t) forest)
        u.store := by
    unfold symbolRange
    rw [if_neg (by rw [hkind]; nofun)]
    have hgrown := ((Store.Skirts.plants hbefore).trans hforest).trans (Store.Skirts.plants hafter)
    rwa [List.append_nil] at hgrown
  by_cases hsource : w.program.kind node = .sourceFile
  · simp only [inside, hsource] at h
    simp only [enter, hsource]
    obtain ⟨t, v, henter, hwalk, hbefore, hafter⟩ := insideSourceFile_skirts h
    exact ⟨t, v, henter, hwalk, hplain (by rw [hsource]; rfl) hbefore hafter⟩
  by_cases hidentifier : w.program.kind node = .identifier
  · simp only [inside, hidentifier] at h
    simp only [enter, hidentifier]
    obtain ⟨_, t, hvisit, hwalk⟩ := bind_eq_ok.mp h
    exact ⟨t, u, hvisit, hwalk, hplain (by rw [hidentifier]; rfl)
      ((visitIdentifier_skirts node s).of_ok hvisit) (refl_of Skirts u)⟩
  by_cases halias : w.program.kind node = .typeAliasDeclaration
  · simp only [inside, halias] at h
    simp only [enter, halias]
    obtain ⟨overrides, m, hassert, h⟩ := bind_eq_ok.mp h
    obtain ⟨v, hinside, hreleased⟩ := underOverrides_eq_ok h
    obtain ⟨t, v', hopen, hwalk, hplants⟩ :=
      insideDocumentSymbol_plants (by rw [halias]; rfl) hinside
    refine ⟨t, v', bind_eq_ok.mpr ⟨(), m, discard_eq_ok.mpr ⟨overrides, hassert⟩, hopen⟩, hwalk,
      fun forest hforest => ?_⟩
    have hasserted : s.Skirts m := (assertForwards_skirts node s).of_ok hassert
    have hgrown := ((Store.Skirts.plants hasserted).trans (hplants forest hforest)).trans
      (Store.Skirts.plants hreleased)
    rwa [List.append_nil] at hgrown
  -- The remaining kinds run the walk at once or inside their own container.
  rw [inside_other hsource hidentifier halias] at h
  rw [enter_other hsource hidentifier halias]
  cases hkind : (w.program.kind node).isDocumentSymbol with
  | true =>
      rw [hkind] at h
      exact insideDocumentSymbol_plants hkind h
  | false =>
      rw [hkind] at h
      exact ⟨s, u, rfl, h, hplain hkind (refl_of Skirts s) (refl_of Skirts u)⟩

end Inside

/-! ### Walking a tree -/

/-- The nodes that walks enter one after the other, each with the session once it was entered. -/
def entriesAlong (walk : NodeId → Running Unit) (entered : NodeId → Session → List (NodeId × Session)) :
    List NodeId → Session → List (NodeId × Session)
  | [],            _ => []
  | node :: nodes, s =>
      entered node s ++ match walk node s with
        | .ok _ t    => entriesAlong walk entered nodes t
        | .error _ _ => []

/-- The nodes that a walk enters, at most `fuel` levels down, each with the session once it was
entered. -/
def entriesWithin (w : Setting) : (fuel : Nat) → NodeId → Session → List (NodeId × Session)
  | 0,        _,    _ => []
  | fuel + 1, node, s =>
      match enter w node s with
      | .ok _ t    =>
          (node, t) ::
            entriesAlong (visitWithin w fuel) (entriesWithin w fuel) (w.program.children node) t
      | .error _ _ => []

/-- The nodes that the walk of a file enters, each with the session once it was entered. -/
def entries (w : Setting) (file : FileId) (s : Session) : List (NodeId × Session) :=
  entriesWithin w (w.program.nodes.size + 1) (w.program.root file) s

/-- What a node is opened for, by the session once it was entered. -/
def openedBy (w : Setting) (entered : List (NodeId × Session)) (node : NodeId) : Option ElementId :=
  ((⟨entered⟩ : Table NodeId Session).get? node).bind (symbolRange w node)

/-- A walk that ends well enters the nodes in the order of the tree. -/
theorem entriesAlong_nodes {walk : NodeId → Running Unit}
    {entered : NodeId → Session → List (NodeId × Session)} {order : NodeId → List NodeId}
    (h : ∀ node s u, walk node s = .ok () u → (entered node s).map Prod.fst = order node) :
    ∀ (nodes : List NodeId) (s : Session), nodes.forM walk s = .ok () u →
      (entriesAlong walk entered nodes s).map Prod.fst = nodes.flatMap order
  | [], _, _ => rfl
  | node :: nodes, s, hwalks => by
      obtain ⟨_, t, hwalk, hwalks⟩ := bind_eq_ok.mp hwalks
      unfold entriesAlong
      rw [hwalk, List.map_append, h node s t hwalk, entriesAlong_nodes h nodes t hwalks]
      rfl

theorem entriesWithin_nodes : ∀ (fuel : Nat) (node : NodeId) (s u : Session),
    visitWithin w fuel node s = .ok () u →
      (entriesWithin w fuel node s).map Prod.fst = w.program.preorderWithin fuel node
  | 0, _, _, _, hvisit => nomatch hvisit
  | fuel + 1, node, s, u, hvisit => by
      obtain ⟨_, m, hinside, -⟩ := bind_eq_ok.mp hvisit
      obtain ⟨t, v, henter, hwalk, -⟩ := inside_plants hinside
      unfold entriesWithin Program.preorderWithin
      rw [henter]
      refine congrArg (node :: ·) (entriesAlong_nodes (entriesWithin_nodes fuel) _ t hwalk)

/-- Walks grow, one after the other, what each of them grows. -/
theorem walks_plant {walk : NodeId → Running Unit}
    {entered : NodeId → Session → List (NodeId × Session)} {grown : NodeId → List SymbolTree}
    {opened : NodeId → Option ElementId} :
    ∀ (nodes : List NodeId) (s : Session),
      (∀ node ∈ nodes, ∀ s u, walk node s = .ok () u →
        (∀ entry ∈ entered node s, opened entry.1 = symbolRange w entry.1 entry.2) →
          s.store.Plants file (grown node) u.store) →
      nodes.forM walk s = .ok () u →
      (∀ entry ∈ entriesAlong walk entered nodes s,
        opened entry.1 = symbolRange w entry.1 entry.2) →
      s.store.Plants file (nodes.flatMap grown) u.store
  | [], s, _, hwalks, _ => by
      cases hwalks
      exact Store.Skirts.plants (refl_of Skirts _)
  | node :: nodes, s, h, hwalks, hopened => by
      obtain ⟨_, t, hwalk, hwalks⟩ := bind_eq_ok.mp hwalks
      unfold entriesAlong at hopened
      rw [hwalk] at hopened
      refine (h node List.mem_cons_self s t hwalk fun entry hentry =>
        hopened entry (List.mem_append_left _ hentry)).trans (walks_plant nodes t
          (fun other hother => h other (List.mem_cons_of_mem _ hother)) hwalks fun entry hentry =>
            hopened entry (List.mem_append_right _ hentry))

/-- **Between entering a node and leaving it** the outline at and below it is grown, if the walks below it
grow theirs. -/
theorem inside_grows {opened : NodeId → Option ElementId} {fuel : Nat}
    (hfile : w.program.fileOf node = file)
    (hwalks : ∀ child ∈ w.program.children node, ∀ s u, visitWithin w fuel child s = .ok () u →
      (∀ entry ∈ entriesWithin w fuel child s, opened entry.1 = symbolRange w entry.1 entry.2) →
        s.store.Plants file (w.program.outlineWithin opened fuel child) u.store)
    (hinside : inside w node ((w.program.children node).forM (visitWithin w fuel)) s = .ok () u)
    (hopened : ∀ entry ∈ entriesWithin w (fuel + 1) node s,
      opened entry.1 = symbolRange w entry.1 entry.2) :
    s.store.Plants file (w.program.outlineWithin opened (fuel + 1) node) u.store := by
  obtain ⟨t, v, henter, hwalk, hplants⟩ := inside_plants hinside
  unfold entriesWithin at hopened
  rw [henter] at hopened
  have hself : opened node = symbolRange w node t := hopened (node, t) List.mem_cons_self
  have hbelow : t.store.Plants file
      ((w.program.children node).flatMap (w.program.outlineWithin opened fuel)) v.store :=
    walks_plant _ t hwalks hwalk fun entry hentry => hopened entry (List.mem_cons_of_mem _ hentry)
  unfold Program.outlineWithin
  rw [hfile, ← hself] at hplants
  exact hplants _ hbelow

/-- **The walk of a tree grows its outline**, whatever containers are open, if no file has its root in the
tree. -/
theorem visitWithin_plants {opened : NodeId → Option ElementId} :
    ∀ (fuel : Nat) (node : NodeId) (s u : Session),
      (∀ below, w.program.Under node below →
        w.program.fileOf below = file ∧ w.program.kind below ≠ .sourceFile) →
      visitWithin w fuel node s = .ok () u →
      (∀ entry ∈ entriesWithin w fuel node s, opened entry.1 = symbolRange w entry.1 entry.2) →
      s.store.Plants file (w.program.outlineWithin opened fuel node) u.store
  | 0, _, _, _, _, hvisit, _ => nomatch hvisit
  | fuel + 1, node, s, u, hunder, hvisit, hopened => by
      obtain ⟨_, m, hinside, hleave⟩ := bind_eq_ok.mp hvisit
      obtain ⟨hfile, hkind⟩ := hunder node .refl
      have hgrown := inside_grows hfile (fun child hchild s' u' => visitWithin_plants fuel child s' u'
        fun below hbelow => hunder below (.head hchild hbelow)) hinside hopened
      have hleft : m.Skirts u := by
        unfold leave at hleave
        rw [if_neg hkind] at hleave
        exact ((store_skirts (Store.nodeProcessed_skirts node)).bind (fun _ => stays_pure) m).of_ok
          hleave
      have hdone := hgrown.trans (Store.Skirts.plants hleft)
      rwa [List.append_nil] at hdone

/-! ### Walking a file -/

/-- Nodes that are entered once are opened by the session in which that happens. -/
theorem openedBy_of_mem {entered : List (NodeId × Session)} (hnodup : (entered.map Prod.fst).Nodup)
    {entry : NodeId × Session} (hmem : entry ∈ entered) :
    openedBy w entered entry.1 = symbolRange w entry.1 entry.2 := by
  unfold openedBy
  rw [Table.get?_of_mem hnodup hmem]
  rfl

/-- The document of a file that was left is the one that it had. -/
theorem exists_documentOf (hs : s.Ready w) (hfile : file ∈ s.store.documents.keys) :
    ∃ document, s.store.DocumentOf file document := by
  obtain ⟨n, hn⟩ := List.mem_iff_getElem?.mp hfile
  have hvertices := congrArg (·[n]?) hs.store.counted.vertices
  simp only [List.getElem?_map, hn, Option.map_some, Option.map_eq_some_iff] at hvertices
  obtain ⟨entry, hentry, -⟩ := hvertices
  exact ⟨entry.1, n, entry.2, hn, hentry⟩

/-- What lies behind the walk once it is about to leave the root of a file. -/
theorem inside_sees {fuel : Nat} (hs : s.Ready w)
    (h : inside w node ((w.program.children node).forM (visitWithin w fuel)) s = .ok () t) :
    t.Ready w ∧ Met w node t ∧ ∀ below, w.program.Below node below → Seen w below t := by
  have hwalk (t : Session) : Proceeds w (fun _ => True) (fun _ => True)
      ((w.program.children node).forM (visitWithin w fuel)) t fun _ u =>
        ∀ child ∈ w.program.children node, ∀ below, w.program.Under child below → Seen w below u :=
    .forM_all (fun _ _ _ htravels hseen below hunder => (hseen below hunder).lasts htravels.lasts) _
      fun child _ _ => visitWithin_proceeds fuel child (fun _ _ => trivial)
        fun _ _ => ⟨trivial, fun _ _ => trivial⟩
  have hinside : Proceeds w (fun _ => True) (fun _ => True)
      (inside w node ((w.program.children node).forM (visitWithin w fuel))) s fun _ u =>
        (∀ child ∈ w.program.children node, ∀ below, w.program.Under child below → Seen w below u) ∧
          Met w node u :=
    inside_proceeds trivial trivial (fun _ _ => trivial) (fun _ _ htravels hseen child hchild below
      hunder => (hseen child hchild below hunder).lasts htravels.lasts) hwalk
  obtain ⟨htravels, hseen, hmet⟩ := (hinside hs).of_ok h
  refine ⟨htravels.ready hs, hmet, fun below hbelow => ?_⟩
  obtain ⟨child, hchild, hunder⟩ := hbelow
  exact hseen child hchild below hunder

/-- **The root of a file is left**, and what was finished of symbols by then is shown. -/
theorem leave_presents (hw : w.documentSymbols = true) (hs : s.Ready w)
    (hkind : w.program.kind node = .sourceFile) {forest : List SymbolTree}
    (hforest : s.store.outline (w.program.fileOf node) = ⟨[], forest⟩)
    (hmet : w.program.fileOf node ∈ s.store.documents.keys) (h : leave w node s = .ok () u) :
    (∀ other, u.store.outline other =
      if other = w.program.fileOf node then .empty else s.store.outline other) ∧
    ∃ document links, u.store.DocumentOf (w.program.fileOf node) document ∧
      symbolLinksIn u.store.elements = symbolLinksIn s.store.elements ++ links ∧
      Store.Presents u.store.elements document forest links := by
  unfold leave at h
  rw [if_pos hkind] at h
  obtain ⟨_, m, hnode, h⟩ := bind_eq_ok.mp h
  obtain ⟨_, t, hend, hforget⟩ := bind_eq_ok.mp h
  obtain ⟨left, hleft, rfl⟩ := onPart_eq_ok.mp hnode
  obtain ⟨ended, hended, rfl⟩ := onPart_eq_ok.mp hend
  cases hforget
  -- The store closes what is local to the root, and then the document ends.
  obtain ⟨hshrinks, -⟩ := (Store.nodeProcessed_shuts hs.store).of_ok hleft
  have hskirts := (Store.nodeProcessed_skirts node s.store).of_ok hleft
  have horderly := hshrinks.orderly hs.store
  have hlive : left.documents.get? (w.program.fileOf node) ≠ some .cleared :=
    fun hcleared => (Store.endDocument_cleared hcleared).of_ok hended
  have hleaving (other : NodeId) (heq : some node = some other) :
      w.program.kind other = .sourceFile ∧ w.program.fileOf node = w.program.fileOf other :=
    Option.some.inj heq ▸ ⟨hkind, rfl⟩
  obtain ⟨hshrinks', -⟩ := (Store.endDocument_shuts hleaving hlive horderly).of_ok hended
  obtain ⟨forest', links, hforest', hother, hlinks, hshown⟩ :=
    (Store.endDocument_outline hw horderly.counted.memory).of_ok hended
  rw [hskirts.outline, hforest] at hforest'
  cases hforest'
  rw [hskirts.outline] at hother
  have hlinks' := hlinks.trans (congrArg (· ++ links) hskirts.graph.links)
  refine ⟨hother, ?_⟩
  rcases hshown with hnone | ⟨d, hd, hshows⟩
  · obtain ⟨document, hdocument⟩ := exists_documentOf hs hmet
    exact ⟨document, links, (hshrinks.lasts.trans hshrinks'.lasts).documentOf hdocument, hlinks',
      .inl hnone⟩
  · exact ⟨d.vertex.id, links, hshrinks'.lasts.documentOf (horderly.counted.live _ d hd), hlinks',
      hshows⟩

/-- **The walk of a file shows its outline.**  From a session in which nothing is known of the symbols
of any document, it comes to another such session, and what it has said of symbols by then is the
outline of the file, said of its document. -/
theorem visitFile_presents (hw : w.documentSymbols = true) (hforest : w.program.Forest)
    (hsiblings : w.program.Siblings) (hfile : file ∈ w.program.sourceFiles) (hs : s.Ready w)
    (hempty : ∀ other, s.store.outline other = .empty) (h : visitFile w file s = .ok () u) :
    (∀ other, u.store.outline other = .empty) ∧ ∃ document links, u.store.DocumentOf file document ∧
      symbolLinksIn u.store.elements = symbolLinksIn s.store.elements ++ links ∧
      Store.Presents u.store.elements document
        (w.program.outline (openedBy w (entries w file s)) (w.program.root file)) links := by
  obtain ⟨hroot, hsource, -⟩ := hforest.root file hfile
  obtain ⟨_, m, hinside, hleave⟩ := bind_eq_ok.mp h
  obtain ⟨hm, hmet, hseen⟩ := inside_sees hs hinside
  have hleaves : Ensures (leave w (w.program.root file)) m
      (fun _ t => Leaves w (w.program.root file) m t) fun fault _ =>
        m.Blames w (fun _ => True) fault :=
    leave_ensures hm trivial
  have hbelow (below : NodeId) (hbelow : w.program.Below (w.program.root file) below) :
      w.program.fileOf below = file ∧ w.program.kind below ≠ .sourceFile := by
    have hsame := (hforest.fileOf_under hbelow.under).trans hroot
    refine ⟨hsame, fun hkind => ?_⟩
    -- A file that has ended below its root cannot end again.
    cases hleaves.of_ok hleave with
    | mk _ _ hlive =>
        refine (hlive hsource).1 ?_
        rw [hroot, ← hsame]
        exact (hseen below hbelow).ended hkind
  have hopened (entry : NodeId × Session) (hentry : entry ∈ entries w file s) :
      openedBy w (entries w file s) entry.1 = symbolRange w entry.1 entry.2 := by
    refine openedBy_of_mem ?_ hentry
    unfold entries
    rw [entriesWithin_nodes _ _ s u h]
    exact hforest.nodup_preorder hsiblings _
  have hgrown := inside_grows hroot (fun child hchild s' u' => visitWithin_plants _ child s' u'
    fun below hunder => hbelow below ⟨child, hchild, hunder⟩) hinside hopened
  have houtline (other : FileId) := hgrown.outline other
  simp only [hempty] at houtline
  obtain ⟨hafter, document, links, hdocument, hlinks, hshows⟩ := leave_presents hw hm hsource
    (by rw [hroot, houtline, if_pos rfl]; rfl) (hmet.document hsource) hleave
  rw [hroot] at hafter hdocument
  refine ⟨fun other => ?_, document, links, hdocument, ?_, hshows⟩
  · rw [hafter, houtline]
    split
    · rfl
    · rfl
  · rw [hlinks, Store.elements, hgrown.graph.links]

end SymbolGraph.Session
