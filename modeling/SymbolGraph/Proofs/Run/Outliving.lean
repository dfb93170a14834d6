import SymbolGraph.Proofs.Program.Building
import SymbolGraph.Proofs.Program.Exports
import SymbolGraph.Proofs.Run.Walked

/-!
# Proofs — Run — what is exported outlives its file

A record is closed when the walk leaves the node that it is local to.  While a module is walked, what
it exports under its own name has an export path, so that a record which is made then is local to no
node.  A record that is made later may be local to a node of the file, but the walk does not come
back there.

* `Store.Outlives`: the records with a key are open, and local to none of the nodes that are left.
* `Session.Travels.outlives`, `Session.Travels.sheltered`: what a walk keeps of that, elsewhere and
  inside the module.
* `Run.Exported`: a symbol that a module declares and exports under its own name.
* `Run.Exported.never_cleared`: its record is not closed when the walk leaves the file, and from then
  on no run fails because it was cleared, if no record of it was local to the file before.
* `Run.not_forall_never_cleared`: where another file has met the symbol first, its record is closed
  all the same, since nothing shelters what is already there.
-/

namespace SymbolGraph

variable {w : Setting} {key : SymbolKey} {nodes nodes' : NodeId → Prop}

namespace Store

variable {s t : Store} {node : NodeId}

/-- The records with a key are open and local to none of certain nodes, and the key does not count as
cleared. -/
structure Outlives (key : SymbolKey) (nodes : NodeId → Prop) (s : Store) : Prop where
  cache   : s.cache.get? key ≠ some .cleared
  records : ∀ (i : Nat) (r : Record), s.records[i]? = some r → r.key = key →
    r.state ≠ .closed ∧ ∀ node, r.scope = some node → ¬ nodes node

namespace Outlives

theorem mono (h : s.Outlives key nodes) (himp : ∀ node, nodes' node → nodes node) :
    s.Outlives key nodes' where
  cache := h.cache
  records i r hr hkey :=
    ⟨(h.records i r hr hkey).1, fun node hscope hnode => (h.records i r hr hkey).2 node hscope
      (himp node hnode)⟩

/-- Records with the key change without being closed. -/
theorem renew (h : s.Outlives key nodes)
    (hcache : t.cache.get? key = some .cleared → s.cache.get? key = some .cleared)
    (hrecords : ∀ (i : Nat) (r' : Record), t.records[i]? = some r' → r'.key = key →
      ∃ r, s.records[i]? = some r ∧ r.Endures r' ∧ (r'.state = .closed → r.state = .closed)) :
    t.Outlives key nodes where
  cache hcleared := h.cache (hcache hcleared)
  records i r' hr' hkey := by
    obtain ⟨r, hr, hendures, hclosed⟩ := hrecords i r' hr' hkey
    obtain ⟨hopen, hscope⟩ := h.records i r hr (hendures.key.symm.trans hkey)
    exact ⟨fun hc => hopen (hclosed hc), fun node hnode => hscope node (hendures.scope ▸ hnode)⟩

theorem collects (h : s.Outlives key nodes) (hstep : s.Collects w t) : t.Outlives key nodes := by
  refine h.renew (fun hcleared => hstep.cache ▸ hcleared) fun i r' hr' _ => ?_
  obtain ⟨r, hr, hamends⟩ := hstep.amending.backward hr'
  exact ⟨r, hr, hamends.toEndures, hamends.closed⟩

/-- A record is replaced by one with the same key that is not closed, or by one with another key. -/
theorem replace (h : s.Outlives key nodes) {graph : Graph} {id : RecordId} {r r' : Record}
    (hr : s.records[id.index]? = some r) (hendures : r.Endures r')
    (hclosed : r.key = key → r'.state = .closed → r.state = .closed) :
    Outlives key nodes { s with graph, records := s.records.modify id.index fun _ => r' } := by
  refine h.renew (fun hcleared => hcleared) fun i r'' hr'' hkey => ?_
  rw [Array.getElem?_modify] at hr''
  split at hr''
  · rename_i hid
    rw [hid] at hr
    rw [hr] at hr''
    obtain rfl := Option.some.inj hr''
    exact ⟨r, hr, hendures, hclosed (hendures.key.symm.trans hkey)⟩
  · exact ⟨r'', hr'', .refl _, fun hc => hc⟩

/-- **A node is left** that no record with the key is local to. -/
theorem closes (h : s.Outlives key nodes) (hnode : nodes node) (hstep : s.Closes w (some node) t) :
    t.Outlives key nodes := by
  have hlocal {i : Nat} {r : Record} (hr : s.records[i]? = some r)
      (hscope : ∀ other, some node = some other → r.scope = some other) : r.key ≠ key :=
    fun hkey => (h.records i r hr hkey).2 node (hscope node rfl) hnode
  cases hstep with
  | tells => exact ⟨h.cache, h.records⟩
  | closes hr hscope hends => exact h.replace hr hends.toEndures fun hkey => absurd hkey (hlocal hr hscope)
  | clears hr hscope =>
      refine ⟨fun hcleared => h.cache ?_, h.records⟩
      rwa [get?_insert_of_ne _ _ (hlocal hr hscope).symm] at hcleared
  | ends _ _ hr hends hstate => exact h.replace hr hends.toEndures fun _ => hstate
  | finishes => exact ⟨h.cache, h.records⟩
  | delivers => exact ⟨h.cache, h.records⟩

theorem shrinks (h : s.Outlives key nodes) (hnode : nodes node)
    (hsteps : s.Shrinks w (some node) t) : t.Outlives key nodes := by
  induction hsteps with
  | refl => exact h
  | tail _ hstep ih => exact ih.closes hnode hstep

theorem gains (h : s.Outlives key nodes) (hsteps : s.Gains w t) : t.Outlives key nodes := by
  induction hsteps with
  | refl => exact h
  | tail _ hstep ih => exact ih.collects hstep

end Outlives

end Store

namespace Session

variable {s t : Session} {module : SymbolRef}

/-- **Gathering** makes no record with the key that is local to one of the nodes, because the key is
sheltered or its symbol is declared elsewhere. -/
theorem Gathers.outlives (hstep : Gathers w s t) (h : s.store.Outlives key nodes)
    (hkey : (∃ module, s.symbols.Shelters w.program module key) ∨
      ∀ node, w.program.Encloses key node → ¬ nodes node) : t.store.Outlives key nodes := by
  cases hstep with
  | collects hcollects => exact h.collects hcollects
  | @reserves key' =>
      refine ⟨fun hcleared => ?_, h.records⟩
      rw [Table.get?_insert] at hcleared
      split at hcleared
      · cases hcleared
      · exact h.cache hcleared
  | @abandons key' =>
      refine ⟨fun hcleared => ?_, h.records⟩
      rw [Table.get?_erase] at hcleared
      split at hcleared
      · cases hcleared
      · exact h.cache hcleared
  | @inserts key' kind scope _ hscope hsheltered =>
      refine ⟨fun hcleared => ?_, fun i r hr hr' => ?_⟩
      · have hslot : (s.store.cache.insert key' (.live ⟨s.store.records.size⟩)).get? key
            = some .cleared := hcleared
        rw [Table.get?_insert] at hslot
        split at hslot
        · cases hslot
        · exact h.cache hslot
      · rcases Store.getElem?_pushed.mp hr with hold | ⟨-, rfl⟩
        · exact h.records i r hold hr'
        · refine ⟨fun heq => (by cases heq), fun node hnode => ?_⟩
          obtain rfl : key' = key := hr'
          rcases hkey with ⟨module, hmodule⟩ | hencloses
          · cases (hsheltered module hmodule).symm.trans hnode
          · exact hencloses node (hscope node hnode)
  | _ => exact ⟨h.cache, h.records⟩

theorem Moves.outlives (hstep : Moves w nodes' s t) (hnodes : ∀ node, nodes' node → nodes node)
    (h : s.store.Outlives key nodes)
    (hkey : (∃ module, s.symbols.Shelters w.program module key) ∨
      ∀ node, w.program.Encloses key node → ¬ nodes node) : t.store.Outlives key nodes := by
  cases hstep with
  | gathers hgathers => exact hgathers.outlives h hkey
  | closes hnode hcloses => exact h.closes (hnodes _ hnode) hcloses
  | _ => exact h

/-- What a module shelters stays sheltered while no root is passed. -/
theorem Moves.shelters (hstep : Moves w nodes s t)
    (hroots : ∀ node, nodes node → w.program.kind node ≠ .sourceFile)
    (h : s.symbols.Shelters w.program module key) : t.symbols.Shelters w.program module key := by
  cases hstep with
  | gathers hgathers => exact (Advances.learns (.single hgathers)).shelters module key h
  | forwards hguards => exact hguards module key h
  | asserts hnode hkind => exact absurd hkind (hroots _ hnode)
  | _ => exact h

namespace Travels

/-- **A walk elsewhere**, through nodes that enclose no declaration of a symbol with the key. -/
theorem outlives (h : Travels w nodes s t) (hs : s.store.Outlives key nodes)
    (hencloses : ∀ node, w.program.Encloses key node → ¬ nodes node) :
    t.store.Outlives key nodes := by
  induction h with
  | refl => exact hs
  | tail _ hstep ih => exact hstep.outlives (fun _ hnode => hnode) ih (.inr hencloses)

/-- **A walk below the root of a module** that shelters the key: no record with the key is local to
any node. -/
theorem sheltered (h : Travels w nodes s t)
    (hroots : ∀ node, nodes node → w.program.kind node ≠ .sourceFile)
    (hmodule : s.symbols.Shelters w.program module key)
    (hs : s.store.Outlives key fun _ => True) :
    t.symbols.Shelters w.program module key ∧ t.store.Outlives key fun _ => True := by
  induction h with
  | refl => exact ⟨hmodule, hs⟩
  | tail _ hstep ih =>
      exact ⟨hstep.shelters hroots ih.1,
        hstep.outlives (fun _ _ => trivial) ih.2 (.inl ⟨module, ih.1⟩)⟩

end Travels

end Session

namespace Run

open SymbolGraph.Action SymbolGraph.Discipline

variable {faults : Nat → Option SinkFault} {s t : Session} {earlier later : List FileId}
  {file : FileId} {module target : SymbolRef}

/-- A module exports a symbol that it declares under its own name. -/
structure Exported (w : Setting) (earlier : List FileId) (file : FileId) (later : List FileId)
    (module target : SymbolRef) : Prop where
  built    : ∃ steps, Program.ofSteps steps = .ok w.program
  /-- The file is walked, and its symbol stands for it. -/
  walked   : walkedFiles w.program = earlier ++ file :: later
  symbol   : w.program.fileSymbol file = some module
  stands   : w.program.isSourceFileSymbol module = true
  /-- The file declares the symbol and exports it under its own name. -/
  declared : ∃ declaration ∈ w.program.declarations target, w.program.fileOf declaration = file
  exports  : w.program.Exports (w.program.root file) target
  /-- Keys tell the file and the symbol from what is declared elsewhere. -/
  alone    : ∀ symbol, w.program.key symbol = w.program.key module →
    w.program.isSourceFileSymbol symbol = true ∨ w.program.key symbol = w.program.key target
  within   : ∀ symbol declaration, w.program.key symbol = w.program.key target →
    w.program.declarations symbol = [declaration] → w.program.fileOf declaration = file

theorem Fresh.outlives (h : Fresh w s) : s.store.Outlives key nodes := by
  refine ⟨?_, fun i r hr => ?_⟩
  · rw [h.cache]
    nofun
  · rw [h.records, Array.getElem?_empty] at hr
    cases hr

/-- A walk that goes wrong after files were walked well goes wrong in a later file. -/
theorem Reached.fails_later {first u : Session} {graph : Graph} {fault : Fault}
    (hs : Reached w faults earlier s)
    (hfirst : start w (Graph.ofSink (.memory faults 0 #[])) = .ok first graph)
    (hvisit : Session.visitFile w file s = .ok () t)
    (hwalk : (earlier ++ file :: later).forM (Session.visitFile w) first = .error fault u) :
    later.forM (Session.visitFile w) t = .error fault u := by
  obtain ⟨first', graph', hfirst', hearlier⟩ := hs.exists_start
  have hsame := hfirst'.symm.trans hfirst
  injection hsame with hsame
  subst hsame
  have happend : (earlier ++ file :: later).forM (Session.visitFile w)
      = (earlier.forM (Session.visitFile w) >>= fun _ => (file :: later).forM (Session.visitFile w)) :=
    List.forM_append
  rw [happend] at hwalk
  simpa [bind, EStateM.bind, hearlier, hvisit] using hwalk

namespace Exported

variable (h : Exported w earlier file later module target)

include h

theorem forest : w.program.Forest := by
  obtain ⟨steps, hsteps⟩ := h.built
  exact Program.ofSteps_forest hsteps

theorem root : w.program.IsRoot file (w.program.root file) := by
  refine h.forest.root file (mem_sourceFiles_of_walked ?_)
  rw [h.walked]
  exact List.mem_append_right _ List.mem_cons_self

/-- A node around the only declaration of the symbol is in the file. -/
theorem not_encloses (node : NodeId) (hnode : w.program.Encloses (w.program.key target) node) :
    ¬ w.program.fileOf node ≠ file := by
  obtain ⟨symbol, declaration, hkey, hdeclared, hmem⟩ := hnode
  exact not_not.mpr ((h.forest.fileOf_ancestor hmem).trans
    (h.within symbol declaration hkey hdeclared))

/-- The nodes of other files are not in the file. -/
theorem fileOf_ne {other : FileId} (hmem : other ∈ walkedFiles w.program) (hne : other ≠ file)
    {node : NodeId} (hunder : w.program.Under (w.program.root other) node) :
    w.program.fileOf node ≠ file := by
  rw [h.forest.fileOf_under hunder, (h.forest.root other (mem_sourceFiles_of_walked hmem)).1]
  exact hne

/-- **Walking other files** leaves the records of the symbol open. -/
theorem visitFiles_ensures {files : List FileId}
    (hfiles : ∀ other ∈ files, other ∈ walkedFiles w.program ∧ other ≠ file) (hs : s.Ready w)
    (houtlives : s.store.Outlives (w.program.key target) fun node => w.program.fileOf node ≠ file) :
    Ensures (files.forM (Session.visitFile w)) s (fun _ t => t.Ready w ∧
        t.store.Outlives (w.program.key target) fun node => w.program.fileOf node ≠ file)
      fun fault _ => fault ≠ .recordCleared (w.program.key target) := by
  have hproceeds : Session.Proceeds w (fun node => w.program.fileOf node ≠ file) (fun _ => True)
      (files.forM (Session.visitFile w)) s fun _ _ => True := by
    refine .forM (fun _ => True) files (fun other hmem t _ => ?_) trivial
    exact (Session.visitWithin_proceeds _ _ (fun below hunder => h.fileOf_ne (hfiles other hmem).1
      (hfiles other hmem).2 hunder) fun _ _ => ⟨trivial, fun _ _ => trivial⟩).mono
        fun _ _ _ => trivial
  refine (hproceeds hs).mono (fun _ t ht => ?_) fun fault t hfault => ?_
  · exact ⟨ht.1.ready hs, ht.1.outlives houtlives h.not_encloses⟩
  · obtain ⟨u, htravels, hblames⟩ := hfault
    rintro rfl
    exact (htravels.outlives houtlives h.not_encloses).cache hblames

/-- A walk that leaves the module has found no other file inside. -/
theorem kind_ne {v t : Session} (hleaves : Session.Leaves w (w.program.root file) v t)
    (hseen : ∀ below, w.program.Below (w.program.root file) below → Session.Seen w below v)
    {node : NodeId} (hnode : w.program.Below (w.program.root file) node) :
    w.program.kind node ≠ .sourceFile := by
  intro hkind
  have hended := (hseen node hnode).ended hkind
  rw [h.forest.fileOf_under hnode.under] at hended
  cases hleaves with
  | mk _ _ hopen => exact (hopen h.root.2.1).1 hended

/-- **Walking the module** leaves the records of the symbol open and local to no node. -/
theorem visitFile_ensures (hs : s.Ready w)
    (hstart : s.store.Outlives (w.program.key target) fun _ => True) :
    Ensures (Session.visitFile w file) s (fun _ t => t.Ready w ∧
      t.store.Outlives (w.program.key target) fun _ => True) fun _ _ => True := by
  refine (Session.visitFile_ensures (fun _ => True) hs h.root.2.1 fun _ _ =>
    ⟨trivial, fun _ _ => trivial⟩).mono (fun _ t ht => ?_) fun _ _ _ => trivial
  obtain ⟨u, v, symbols, henters, htravels, hleaves, -, hseen⟩ := ht
  have hready := htravels.ready (henters.ready hs)
  have hready' : Session.Ready w { v with symbols } := ⟨hready.store, hready.lines⟩
  have hleft : Session.Travels w (fun _ => True) { v with symbols } t := hleaves.travels trivial
  have hroots (node : NodeId) (hnode : w.program.Below (w.program.root file) node) :
      w.program.kind node ≠ .sourceFile :=
    h.kind_ne hleaves (fun below hbelow => (hseen below hbelow).lasts (.refl _)) hnode
  have hinside : v.store.Outlives (w.program.key target) fun _ => True := by
    cases henters with
    | mk hgains hsymbols =>
        have hfile := h.root.1
        have hasserted := Program.mem_exportTargets h.forest h.exports (hfile.symm ▸ h.declared)
        have hsheltered := Symbols.shelters_assertingAll (s := s.symbols) h.stands h.alone hasserted
        rw [← hsymbols module (hfile.symm ▸ h.symbol)] at hsheltered
        exact (htravels.sheltered hroots hsheltered (hstart.gains hgains)).2
  refine ⟨hleft.ready hready', ?_⟩
  cases hleaves with
  | mk hshrinks => exact Store.Outlives.shrinks hinside trivial hshrinks

/-- The files before and after the module are other files. -/
theorem others {other : FileId} (hmem : other ∈ earlier ∨ other ∈ later) :
    other ∈ walkedFiles w.program ∧ other ≠ file := by
  have hnodup := nodup_walkedFiles w.program
  rw [h.walked] at hnodup ⊢
  obtain ⟨-, hrest, hdisjoint⟩ := List.nodup_append.mp hnodup
  rcases hmem with hmem | hmem
  · exact ⟨List.mem_append_left _ hmem, hdisjoint other hmem file List.mem_cons_self⟩
  · refine ⟨List.mem_append_right _ (List.mem_cons_of_mem _ hmem), fun heq => ?_⟩
    exact (List.nodup_cons.mp hrest).1 (heq ▸ hmem)

/-- Walking the files before the module leaves the records of the symbol open. -/
theorem of_earlier (hs : Reached w faults earlier s) : s.Ready w ∧
    s.store.Outlives (w.program.key target) fun node => w.program.fileOf node ≠ file := by
  obtain ⟨first, graph, hstart, hearlier⟩ := hs.exists_start
  have hfresh := start_fresh.of_ok hstart
  exact (h.visitFiles_ensures (fun _ hmem => h.others (.inl hmem)) hfresh.ready
    hfresh.outlives).of_ok hearlier

/-- **What a module exports is not closed when the walk leaves its file, and from then on no run fails
because it was cleared**, if the record was local to no node where it was made before. -/
theorem never_cleared (hs : Reached w faults earlier s)
    (hfree : ∀ (i : Nat) (r : Record), s.store.records[i]? = some r →
      r.key = w.program.key target → r.scope = none)
    (hvisit : Session.visitFile w file s = .ok () t) :
    (∀ (i : Nat) (r : Record), t.store.records[i]? = some r → r.key = w.program.key target →
      r.state ≠ .closed) ∧
    (index w (.memory faults 0 #[])).1 ≠ .error (.recordCleared (w.program.key target)) := by
  obtain ⟨hready, hbefore⟩ := h.of_earlier hs
  have hstart : s.store.Outlives (w.program.key target) fun _ => True := by
    refine ⟨hbefore.cache, fun i r hr hkey => ⟨(hbefore.records i r hr hkey).1, fun node hnode => ?_⟩⟩
    exact nomatch (hfree i r hr hkey).symm.trans hnode
  obtain ⟨hready, hafter⟩ := (h.visitFile_ensures hready hstart).of_ok hvisit
  refine ⟨fun i r hr hkey => (hafter.records i r hr hkey).1, fun hindex => ?_⟩
  rcases index_fault hindex with hown | ⟨first, graph, u, hfirst, hwalk⟩
  · exact hown
  · have hlater := hs.fails_later hfirst hvisit (h.walked ▸ hwalk)
    exact (h.visitFiles_ensures (fun _ hmem => h.others (.inr hmem)) hready
      (hafter.mono fun _ _ => trivial)).of_error hlater rfl

end Exported

/-! ### A module that is imported -/

/-- Where all keys differ, also from that of symbols without declarations, a key tells a symbol. -/
theorem eq_of_key {p : Program} (hkeys : (SymbolKey.undeclared
      :: (List.range p.symbols.size).map fun i => p.key ⟨i⟩).Nodup)
    {symbol other : SymbolRef} (hother : other.index < p.symbols.size)
    (hkey : p.key symbol = p.key other) : symbol = other := by
  obtain ⟨hdeclared, hdiffer⟩ := List.nodup_cons.mp hkeys
  by_cases hsymbol : symbol.index < p.symbols.size
  · have hindex := List.inj_on_of_nodup_map hdiffer (List.mem_range.mpr hsymbol)
      (List.mem_range.mpr hother) hkey
    exact congrArg SymbolRef.mk hindex
  · have hnone : p.symbol? symbol = none := Array.getElem?_eq_none (Nat.le_of_not_lt hsymbol)
    have hmissing : p.key symbol = .undeclared := by
      simp [Program.key, Program.declarations, Program.isUnknown, Program.isUndefined, hnone]
    refine absurd (List.mem_map.mpr ⟨other.index, List.mem_range.mpr hother, ?_⟩) hdeclared
    exact hkey.symm.trans hmissing

/-- The steps for a module that declares a variable and exports it by a specifier.  Its root is the node
with the given handle, and its symbols are the first ones. -/
def exporting (root : Nat) : List Program.Step :=
  [.file ⟨"/p/m.ts"⟩ "const a = 1; export { a };", .module ⟨root⟩,
   .declaration ⟨root⟩ .variableDeclaration "a = 1" "a",
   .symbol "a" .blockScopedVariable, .declare ⟨1⟩ ⟨root + 1⟩,
   .nodeAt ⟨root⟩ .exportDeclaration "export { a };" 0,
   .nodeAt ⟨root + 3⟩ .exportSpecifier "a" 0,
   .symbol "a" .ofAlias, .declare ⟨2⟩ ⟨root + 4⟩, .aliased ⟨2⟩ ⟨1⟩]

/-- The steps for a file that imports the variable by a specifier. -/
def importFile (path : String) (root : Nat) : List Program.Step :=
  [.file ⟨path⟩ "import { a } from './m'", .declaration ⟨root⟩ .importSpecifier "a" "a"]

/-- The steps for the alias that such a specifier declares. -/
def importSymbol (symbol specifier : Nat) : List Program.Step :=
  [.symbol "a" .ofAlias, .declare ⟨symbol⟩ ⟨specifier⟩, .aliased ⟨symbol⟩ ⟨1⟩]

/-- A module exports its variable, in a program whose keys tell its symbols. -/
theorem exporting_exported (root : Nat) (hbuilt : ∃ steps, Program.ofSteps steps = .ok w.program)
    (hfacts : walkedFiles w.program = earlier ++ file :: later ∧
      (w.program.root file = ⟨root⟩ ∧ w.program.fileSymbol file = some ⟨0⟩ ∧
        w.program.isSourceFileSymbol ⟨0⟩ = true) ∧
      (w.program.declarations ⟨1⟩ = [⟨root + 1⟩] ∧ w.program.fileOf ⟨root + 1⟩ = file) ∧
      (⟨root + 3⟩ ∈ w.program.children ⟨root⟩ ∧
        w.program.kind ⟨root + 3⟩ = .exportDeclaration ∧ ⟨root + 4⟩ ∈ w.program.children ⟨root + 3⟩ ∧
        w.program.kind ⟨root + 4⟩ = .exportSpecifier) ∧
      (w.program.symbolAt ⟨root + 4⟩ = some ⟨2⟩ ∧ w.program.behindAlias ⟨2⟩ = ⟨1⟩ ∧
        w.program.symbolName ⟨1⟩ = w.program.symbolName ⟨2⟩) ∧
      1 < w.program.symbols.size ∧ (SymbolKey.undeclared
        :: (List.range w.program.symbols.size).map fun i => w.program.key ⟨i⟩).Nodup) :
    Exported w earlier file later ⟨0⟩ ⟨1⟩ := by
  obtain ⟨hwalked, ⟨hroot, hsymbol, hstands⟩, ⟨hdeclared, hfile⟩, ⟨hbelow, hkind, hchild, hspecifies⟩,
    ⟨hdenotes, htarget, hname⟩, hsize, hdiffer⟩ := hfacts
  have hforest : w.program.Forest := by
    obtain ⟨steps, hsteps⟩ := hbuilt
    exact Program.ofSteps_forest hsteps
  refine ⟨hbuilt, hwalked, hsymbol, hstands, ⟨_, hdeclared ▸ List.mem_singleton_self _, hfile⟩, ?_,
    fun symbol hkey => .inl ?_, fun symbol declaration hkey hdeclares => ?_⟩
  · exact Program.exports_of_specifier hforest (hroot ▸ hbelow) hkind hchild hspecifies hdenotes
      htarget hname
  · obtain rfl := eq_of_key hdiffer (Nat.lt_of_succ_lt hsize) hkey
    exact hstands
  · obtain rfl := eq_of_key hdiffer hsize hkey
    rw [hdeclared] at hdeclares
    exact List.singleton_inj.mp hdeclares ▸ hfile

/-- The module is walked before the file that imports the variable. -/
def exportsPlainly : Setting :=
  plain (exporting 0 ++ importFile "/p/u.ts" 5 ++ importSymbol 3 6)

theorem exportsPlainly_exported : Exported exportsPlainly [] ⟨0⟩ [⟨1⟩] ⟨0⟩ ⟨1⟩ := by
  have hok : (Program.ofSteps (exporting 0 ++ importFile "/p/u.ts" 5 ++ importSymbol 3 6)).isOk
      = true := by
    decide +kernel
  exact exporting_exported 0 (plain_built hok) (by decide +kernel)

/-- The record of a variable that is exported under its own name is there and open when the walk
leaves the module, and importing the variable does not fail. -/
theorem exportsPlainly_never_cleared : ∃ s t, Reached exportsPlainly (fun _ => none) [] s ∧
    Session.visitFile exportsPlainly ⟨0⟩ s = .ok () t ∧
    (∃ r, t.store.records[1]? = some r ∧ r.key = exportsPlainly.program.key ⟨1⟩ ∧
      r.state ≠ .closed) ∧
    (index exportsPlainly (.memory (fun _ => none) 0 #[])).1
      ≠ .error (.recordCleared (exportsPlainly.program.key ⟨1⟩)) := by
  have hrun : (reached? exportsPlainly (fun _ => none) []).any (fun s => s.store.records.isEmpty &&
      (ending? (Session.visitFile exportsPlainly ⟨0⟩) s).any fun t =>
        t.store.records[1]?.any fun r => r.key = exportsPlainly.program.key ⟨1⟩) = true := by
    decide +kernel
  obtain ⟨s, hs, hfacts⟩ := (Option.any_eq_true _ _).mp hrun
  obtain ⟨hempty, hvisits⟩ := Bool.and_eq_true_iff.mp hfacts
  have hfree (i : Nat) (r : Record) (hr : s.store.records[i]? = some r)
      (_ : r.key = exportsPlainly.program.key ⟨1⟩) : r.scope = none := by
    rw [Array.isEmpty_iff.mp hempty, Array.getElem?_empty] at hr
    cases hr
  obtain ⟨t, hend, hfound⟩ := (Option.any_eq_true _ _).mp hvisits
  obtain ⟨_, hvisit⟩ := ending?_eq_some.mp hend
  obtain ⟨r, hr, hkey⟩ := (Option.any_eq_true _ _).mp hfound
  obtain ⟨hopen, hindex⟩ := exportsPlainly_exported.never_cleared hs hfree hvisit
  exact ⟨s, t, hs, hvisit, ⟨r, hr, of_decide_eq_true hkey, hopen 1 r hr (of_decide_eq_true hkey)⟩,
    hindex⟩

/-- One file that imports the variable is walked before the module, and another one after it. -/
def importsEarly : Setting :=
  plain (importFile "/p/u.ts" 0 ++ exporting 3 ++ importSymbol 3 1 ++ importFile "/p/v.ts" 8
    ++ importSymbol 4 9)

theorem importsEarly_exported : Exported importsEarly [⟨0⟩] ⟨1⟩ [⟨2⟩] ⟨0⟩ ⟨1⟩ := by
  have hok : (Program.ofSteps (importFile "/p/u.ts" 0 ++ exporting 3 ++ importSymbol 3 1
      ++ importFile "/p/v.ts" 8 ++ importSymbol 4 9)).isOk = true := by
    decide +kernel
  exact exporting_exported 3 (plain_built hok) (by decide +kernel)

/-- **An export does not always outlive its file.**  A module declares a variable and exports it under
its own name.  A file that imports the variable is walked before the module: the record that is made
then is local to the module, and nothing shelters it later.  So it is closed when the walk leaves the
module, and the run fails in the next file that imports the variable. -/
theorem not_forall_never_cleared : ¬ ∀ (w : Setting) (earlier later : List FileId) (file : FileId)
    (module target : SymbolRef) (s t : Session), Exported w earlier file later module target →
    Reached w (fun _ => none) earlier s → Session.visitFile w file s = .ok () t →
    (∀ (i : Nat) (r : Record), t.store.records[i]? = some r → r.key = w.program.key target →
      r.state ≠ .closed) ∧
    (index w (.memory (fun _ => none) 0 #[])).1 ≠ .error (.recordCleared (w.program.key target)) := by
  intro hall
  have hrun : (reached? importsEarly (fun _ => none) [⟨0⟩]).any (fun s =>
      (ending? (Session.visitFile importsEarly ⟨1⟩) s).isSome) = true ∧
      (index importsEarly (.memory (fun _ => none) 0 #[])).1
        = .error (.recordCleared (importsEarly.program.key ⟨1⟩)) := by
    decide +kernel
  obtain ⟨hreached, hindex⟩ := hrun
  obtain ⟨s, hs, hvisits⟩ := (Option.any_eq_true _ _).mp hreached
  obtain ⟨t, hend⟩ := Option.isSome_iff_exists.mp hvisits
  obtain ⟨_, hvisit⟩ := ending?_eq_some.mp hend
  exact (hall importsEarly _ _ _ _ _ s t importsEarly_exported hs hvisit).2 hindex

end Run

end SymbolGraph
