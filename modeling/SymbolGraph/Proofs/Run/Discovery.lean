import SymbolGraph.Proofs.Program.Building
import SymbolGraph.Proofs.Run.Walked

/-!
# Proofs — Run — symbols that are met too late

The document of a file ends with the walk of the file, and so do the partitions for it.  A symbol is
defined in the files that declare it when it is first met.  So a run is safe where every symbol that
a walked file declares is met while that file is walked, and it fails where a symbol is first met
after one of its files has ended.

* `Store.ClearedIn`: documents and partitions are cleared for certain files only.
* `Session.Travels.clearedIn`: a walk clears them for the files whose roots it leaves.
* `Run.Settles`: what a run has behind it after some of its files.
* `Run.Discoverable.never_late`: a run over a program all of whose symbols are met in time finds no
  document and no partition cleared.
-/

namespace SymbolGraph

/-- The faults of what was used after the end of a file. -/
def Fault.IsLate : Fault → Prop
  | .documentCleared _ | .partitionCleared _ _ => True
  | _ => False

theorem Fault.IsOwn.not_isLate {fault : Fault} (h : fault.IsOwn) : ¬ fault.IsLate := by
  intro hlate
  cases fault with
  | documentCleared => exact h
  | partitionCleared => exact h
  | _ => exact hlate

variable {w : Setting} {files : FileId → Prop}

namespace Store

variable {s t : Store} {node : NodeId}

/-- Documents and partitions are cleared for certain files only. -/
structure ClearedIn (files : FileId → Prop) (s : Store) : Prop where
  documents  : ∀ file, s.documents.get? file = some .cleared → files file
  partitions : ∀ file, s.HasClearedPartition file → files file

namespace ClearedIn

theorem mono {more : FileId → Prop} (h : s.ClearedIn files)
    (himp : ∀ file, files file → more file) : s.ClearedIn more :=
  ⟨fun file hc => himp file (h.documents file hc), fun file hc => himp file (h.partitions file hc)⟩

theorem spares (h : s.ClearedIn files) (hspares : s.Spares t) : t.ClearedIn files :=
  ⟨fun file hc => h.documents file (hspares.documents file hc),
    fun file hc => h.partitions file (hspares.partitions file hc)⟩

/-- A record is replaced by one that may have seen the end of some of the files. -/
theorem replace (h : s.ClearedIn files) {graph : Graph} {id : RecordId} {r r' : Record}
    {ended : FileId → Prop} (hr : s.records[id.index]? = some r) (hends : r.Ends ended r')
    (hended : ∀ file, ended file → files file) :
    ClearedIn files { s with graph, records := s.records.modify id.index fun _ => r' } := by
  refine ⟨h.documents, fun file hcleared => ?_⟩
  obtain ⟨i, known, hknown, hc⟩ := hcleared
  obtain ⟨old, hold, hends'⟩ := (renews_ends hr hends).backward hknown
  rcases hends'.cleared file hc with hc | hc
  · exact h.partitions file ⟨i, old, hold, hc⟩
  · exact hended file hc

/-- **A node is left**: if it is a root, its file has ended. -/
theorem closes (h : s.ClearedIn files) (hstep : s.Closes w (some node) t)
    (hroot : w.program.kind node = .sourceFile → files (w.program.fileOf node)) :
    t.ClearedIn files := by
  cases hstep with
  | tells => exact ⟨h.documents, h.partitions⟩
  | closes hr _ hends => exact h.replace hr hends fun _ hfalse => hfalse.elim
  | clears => exact ⟨h.documents, h.partitions⟩
  | ends hleaving hkind hr hends =>
      obtain rfl := Option.some.inj hleaving
      exact h.replace hr hends fun file heq => heq ▸ hroot hkind
  | finishes _ hleaving =>
      obtain ⟨hkind, rfl⟩ := hleaving node rfl
      refine ⟨fun file hcleared => ?_, h.partitions⟩
      by_cases heq : file = w.program.fileOf node
      · exact heq ▸ hroot hkind
      · rw [get?_insert_of_ne _ file heq] at hcleared
        exact h.documents file hcleared
  | delivers => exact ⟨h.documents, h.partitions⟩

theorem shrinks (h : s.ClearedIn files) (hsteps : s.Shrinks w (some node) t)
    (hroot : w.program.kind node = .sourceFile → files (w.program.fileOf node)) :
    t.ClearedIn files := by
  induction hsteps with
  | refl => exact h
  | tail _ hstep ih => exact ih.closes hstep hroot

end ClearedIn

end Store

namespace Session

variable {nodes : NodeId → Prop} {s t : Session}

theorem Moves.clearedIn (h : Moves w nodes s t) (hs : s.store.ClearedIn files)
    (hnodes : ∀ node, nodes node → w.program.kind node = .sourceFile →
      files (w.program.fileOf node)) : t.store.ClearedIn files := by
  cases h with
  | gathers hgathers => exact hs.spares hgathers.spares
  | closes hnode hcloses => exact hs.closes hcloses (hnodes _ hnode)
  | _ => exact hs

/-- **A walk clears documents and partitions for the files whose roots it leaves.** -/
theorem Travels.clearedIn (h : Travels w nodes s t) (hs : s.store.ClearedIn files)
    (hnodes : ∀ node, nodes node → w.program.kind node = .sourceFile →
      files (w.program.fileOf node)) : t.store.ClearedIn files := by
  induction h with
  | refl => exact hs
  | tail _ hstep ih => exact hstep.clearedIn ih hnodes

end Session

namespace Run

open SymbolGraph.Action

variable {faults : Nat → Option SinkFault} {s t : Session} {file : FileId} {rest : List FileId}

/-- A program whose only source files are the roots, whose names stay within their files, and all of
whose symbols are met in each walked file that declares them. -/
structure Discoverable (p : Program) : Prop where
  built : ∃ steps, Program.ofSteps steps = .ok p
  roots : ∀ node, p.kind node = .sourceFile → ∃ file ∈ p.sourceFiles, node = p.root file
  names : ∀ file ∈ walkedFiles p, ∀ node name, p.Under (p.root file) node →
    p.nameOf node = some name → p.fileOf name = file
  met   : ∀ file ∈ walkedFiles p, ∀ symbol, ∀ declaration ∈ p.declarations symbol,
    p.fileOf declaration = file → ∃ node known, p.Under (p.root file) node ∧ p.Meets node known ∧
      p.key known = p.key symbol

/-- What a run has behind it when some files are left: only files that it has walked have ended, and
it knows the symbols that they declare. -/
structure Settles (w : Setting) (rest : List FileId) (s : Session) : Prop where
  ready   : s.Ready w
  cleared : s.store.ClearedIn fun file => file ∈ walkedFiles w.program ∧ file ∉ rest
  known   : ∀ file ∈ walkedFiles w.program, file ∉ rest → ∀ symbol,
    ∀ declaration ∈ w.program.declarations symbol, w.program.fileOf declaration = file →
      s.store.Knows (w.program.key symbol)

/-- Nothing that was cleared can be blamed while a file is walked. -/
theorem Settles.not_blames (h : Settles w (file :: rest) s) {fault : Fault} :
    s.Blames w (· = file) fault → ¬ fault.IsLate := by
  have hinnocent (other : FileId) (hended : other ∈ walkedFiles w.program ∧ other ∉ file :: rest) :
      ¬ (other = file ∨ s.Undiscovered w.program other) := by
    intro hblamed
    rcases hblamed with rfl | ⟨symbol, declaration, hmem, hdeclared, hunknown⟩
    · exact hended.2 List.mem_cons_self
    · exact hunknown (h.known other hended.1 hended.2 symbol declaration hmem hdeclared)
  intro hblames hlate
  cases fault with
  | documentCleared =>
      obtain ⟨other, hblamed, hcleared⟩ := hblames
      exact hinnocent other (h.cleared.documents other hcleared) hblamed
  | partitionCleared =>
      obtain ⟨other, hblamed, hcleared⟩ := hblames
      exact hinnocent other (h.cleared.partitions other hcleared) hblamed
  | _ => exact hlate

/-- A run settles nothing at its start. -/
theorem Fresh.settles (h : Fresh w s) : Settles w (walkedFiles w.program) s where
  ready := h.ready
  cleared := by
    refine ⟨fun file hcleared => ?_, fun file hcleared => ?_⟩
    · rw [h.documents] at hcleared
      cases hcleared
    · obtain ⟨i, r, hr, -⟩ := hcleared
      rw [h.records, Array.getElem?_empty] at hr
      cases hr
  known _ hmem hrest := absurd hmem hrest

namespace Discoverable

variable (h : Discoverable w.program)

include h

theorem forest : w.program.Forest := by
  obtain ⟨steps, hsteps⟩ := h.built
  exact Program.ofSteps_forest hsteps

/-- Below the root of a file there is no other file. -/
theorem kind_ne {node other : NodeId} (hbelow : w.program.Below node other) :
    w.program.kind other ≠ .sourceFile := by
  intro hkind
  obtain ⟨file, hfile, rfl⟩ := h.roots other hkind
  exact h.forest.parent_below hbelow (h.forest.root file hfile).2.2

/-- A session that a walk below a root came to still settles what was settled. -/
theorem settles_below {u v : Session} (hs : Settles w (file :: rest) s)
    (henters : Session.Enters w (w.program.root file) s u)
    (htravels : Session.Travels w (w.program.Below (w.program.root file)) u v) :
    Settles w (file :: rest) v := by
  have hready := henters.ready hs.ready
  cases henters with
  | mk hgains =>
      refine ⟨htravels.ready hready, ?_, fun other hmem hrest symbol declaration hdeclares heq => ?_⟩
      · exact htravels.clearedIn (hs.cleared.spares hgains.spares)
          fun node hnode hkind => absurd hkind (h.kind_ne hnode)
      · exact htravels.lasts.knows _ (hgains.lasts.knows _
          (hs.known other hmem hrest symbol declaration hdeclares heq))

/-- **Walking a file** settles it, and does not fail because something has ended. -/
theorem visitFile_settles (hmem : file ∈ walkedFiles w.program) (hnodup : (file :: rest).Nodup)
    (hs : Settles w (file :: rest) s) : Ensures (Session.visitFile w file) s
      (fun _ t => Settles w rest t) fun fault _ => ¬ fault.IsLate := by
  obtain ⟨hfile, hkind, -⟩ := h.forest.root file (mem_sourceFiles_of_walked hmem)
  have hhere (below : NodeId) (hunder : w.program.Under (w.program.root file) below) :
      w.program.fileOf below = file ∧
        ∀ name, w.program.nameOf below = some name → w.program.fileOf name = file :=
    ⟨(h.forest.fileOf_under hunder).trans hfile,
      fun name hname => h.names file hmem below name hunder hname⟩
  refine (Session.visitFile_ensures (· = file) hs.ready hkind hhere).mono (fun _ t ht => ?_)
    fun fault _ hfault => ?_
  -- The walk of `file` meets every symbol it declares; what other files declare was known before or
  -- is left to the rest.
  · obtain ⟨u, v, symbols, henters, htravels, hleaves, hmet, hseen⟩ := ht
    have hv := h.settles_below hs henters htravels
    have hleft : Session.Travels w (fun _ => True) { v with symbols } t := hleaves.travels trivial
    refine ⟨hleft.ready ⟨hv.ready.store, hv.ready.lines⟩, ?_,
      fun other hother hrest symbol declaration hdeclares heq => hleft.lasts.knows _ ?_⟩
    · have hmore : v.store.ClearedIn fun other => other ∈ walkedFiles w.program ∧ other ∉ rest :=
        hv.cleared.mono fun other hended => ⟨hended.1, fun hin => hended.2 (.tail _ hin)⟩
      cases hleaves with
      | mk hshrinks =>
          refine hmore.shrinks hshrinks fun _ => ?_
          rw [hfile]
          exact ⟨hmem, (List.nodup_cons.mp hnodup).1⟩
    · by_cases hsame : other = file
      · subst hsame
        obtain ⟨node, known, hunder, hmeets, hkey⟩ :=
          h.met other hmem symbol declaration hdeclares heq
        rw [← hkey]
        rcases Program.under_iff.mp hunder with rfl | hbelow
        · exact hmet.known known hmeets
        · exact (hseen node hbelow).known known hmeets
      · exact hv.known other hother (List.not_mem_cons_of_ne_of_not_mem hsame hrest) symbol
          declaration hdeclares heq
  · rcases hfault with hblames | ⟨u, v, henters, htravels, hblames⟩
    · exact hs.not_blames hblames
    · exact (h.settles_below hs henters htravels).not_blames hblames

/-- Walking all files settles them. -/
theorem visitFiles_settles (hs : Fresh w s) :
    Ensures ((walkedFiles w.program).forM (Session.visitFile w)) s
      (fun _ t => [] <:+ walkedFiles w.program ∧ Settles w [] t) fun fault _ => ¬ fault.IsLate := by
  refine Ensures.forM (fun rest s => rest <:+ walkedFiles w.program ∧ Settles w rest s)
    (fun file rest t ht => ?_) ⟨List.suffix_refl _, hs.settles⟩
  obtain ⟨hsuffix, hsettles⟩ := ht
  have hnodup : (file :: rest).Nodup := (nodup_walkedFiles w.program).sublist hsuffix.sublist
  exact (h.visitFile_settles (hsuffix.subset List.mem_cons_self) hnodup hsettles).mono
    (fun _ _ hu => ⟨(List.suffix_cons file rest).trans hsuffix, hu⟩) fun _ _ hfault => hfault

/-- **A run over a program all of whose symbols are met in time finds no document and no partition
cleared.** -/
theorem never_late :
    (∀ path, (index w (.memory faults 0 #[])).1 ≠ .error (.documentCleared path)) ∧
    ∀ symbol path, (index w (.memory faults 0 #[])).1 ≠ .error (.partitionCleared symbol path) := by
  have hnever {fault : Fault} (hlate : fault.IsLate) :
      (index w (.memory faults 0 #[])).1 ≠ .error fault := by
    intro hindex
    rcases index_fault hindex with hown | ⟨first, graph, t, hstart, hwalk⟩
    · exact hown.not_isLate hlate
    · exact (h.visitFiles_settles (start_fresh.of_ok hstart)).of_error hwalk hlate
  exact ⟨fun _ => hnever trivial, fun _ _ => hnever trivial⟩

end Discoverable

/-! ### A property that another file mentions -/

/-- The steps for a file that declares a property, and for another file that mentions it.  The name
of the property is a node of some kind. -/
def mentioning (kind : NodeKind) (name : String) : List Program.Step :=
  [.file ⟨"/p/a.ts"⟩ ("o = \x7b " ++ name ++ ": 1 \x7d"), .nodeAt ⟨0⟩ .other (name ++ ": 1") 0,
   .nodeAt ⟨1⟩ kind name 0, .setName ⟨1⟩ ⟨2⟩, .symbol "k" .property, .declare ⟨0⟩ ⟨1⟩,
   .file ⟨"/p/b.ts"⟩ "o.k", .identifier ⟨3⟩ "k" 0 ⟨0⟩]

/-- The property has an identifier for its name. -/
def namesProperty : Setting := plain (mentioning .identifier "k")

/-- The property has a string for its name, which a walk passes by. -/
def quotesProperty : Setting := plain (mentioning .other "'k'")

theorem namesProperty_discoverable : Discoverable namesProperty.program := by
  have hfacts : (Program.ofSteps (mentioning .identifier "k")).isOk = true ∧
      (∀ i < namesProperty.program.nodes.size, namesProperty.program.kind ⟨i⟩ = .sourceFile →
        ∃ file ∈ namesProperty.program.sourceFiles, ⟨i⟩ = namesProperty.program.root file) ∧
      (∀ i < namesProperty.program.nodes.size, ∀ name ∈ namesProperty.program.nameOf ⟨i⟩,
        namesProperty.program.fileOf name = namesProperty.program.fileOf ⟨i⟩) ∧
      namesProperty.program.symbols.size = 1 ∧
      namesProperty.program.declarations ⟨0⟩ = [⟨1⟩] ∧ namesProperty.program.fileOf ⟨1⟩ = ⟨0⟩ ∧
      ⟨1⟩ ∈ namesProperty.program.children (namesProperty.program.root ⟨0⟩) ∧
      ⟨2⟩ ∈ namesProperty.program.children ⟨1⟩ ∧
      namesProperty.program.kind ⟨2⟩ = .identifier ∧
      namesProperty.program.symbolAt ⟨2⟩ = some ⟨0⟩ := by
    decide +kernel
  obtain ⟨hok, hroots, hnames, hsize, hdeclared, hfile, hproperty, hname, hkind, hdenotes⟩ := hfacts
  obtain ⟨steps, hsteps⟩ := plain_built hok
  have hforest : namesProperty.program.Forest := Program.ofSteps_forest hsteps
  refine ⟨⟨steps, hsteps⟩, fun node hnode => hroots node.index (Program.index_lt (.inr (.inl hnode))) hnode,
    fun file hmem node name hunder hnamed => ?_,
    fun file hmem symbol declaration hdeclares hof => ?_⟩
  · have hexists := Program.index_lt (.inr (.inr (hnamed ▸ nofun : namesProperty.program.nameOf node ≠ none)))
    have hsame := hnames node.index hexists name hnamed
    rw [hsame, hforest.fileOf_under hunder]
    exact (hforest.root file (mem_sourceFiles_of_walked hmem)).1
  · obtain ⟨index⟩ := symbol
    have hindex : index < namesProperty.program.symbols.size := Program.index_lt_of_declares hdeclares
    obtain rfl : index = 0 := by omega
    rw [hdeclared, List.mem_singleton] at hdeclares
    subst hdeclares
    rw [hfile] at hof
    subst hof
    exact ⟨⟨2⟩, ⟨0⟩, .head hproperty (.single hname), .identifier hkind hdenotes, rfl⟩

/-- The property whose name is an identifier is met in time. -/
theorem namesProperty_never_late : namesProperty.program.symbolAt ⟨4⟩ = some ⟨0⟩ ∧
    namesProperty.program.fileOf ⟨4⟩ = ⟨1⟩ ∧
    (∀ path, (index namesProperty (.memory (fun _ => none) 0 #[])).1
      ≠ .error (.documentCleared path)) ∧
    ∀ symbol path, (index namesProperty (.memory (fun _ => none) 0 #[])).1
      ≠ .error (.partitionCleared symbol path) := by
  have hmention : namesProperty.program.symbolAt ⟨4⟩ = some ⟨0⟩ ∧
      namesProperty.program.fileOf ⟨4⟩ = ⟨1⟩ := by
    decide +kernel
  exact ⟨hmention.1, hmention.2, namesProperty_discoverable.never_late⟩

/-- **Not every symbol is met in time.**  A walk passes by the string that names a property, so that
the property is first met in the other file, and the document it is defined in has ended. -/
theorem not_forall_never_late : ¬ ∀ w : Setting, (∃ steps, Program.ofSteps steps = .ok w.program) →
    (∀ node, w.program.kind node = .sourceFile →
      ∃ file ∈ w.program.sourceFiles, node = w.program.root file) →
    (∀ path, (index w (.memory (fun _ => none) 0 #[])).1 ≠ .error (.documentCleared path)) ∧
    ∀ symbol path, (index w (.memory (fun _ => none) 0 #[])).1
      ≠ .error (.partitionCleared symbol path) := by
  intro hall
  have hfacts : (Program.ofSteps (mentioning .other "'k'")).isOk = true ∧
      (∀ i < quotesProperty.program.nodes.size, quotesProperty.program.kind ⟨i⟩ = .sourceFile →
        ∃ file ∈ quotesProperty.program.sourceFiles, ⟨i⟩ = quotesProperty.program.root file) ∧
      (index quotesProperty (.memory (fun _ => none) 0 #[])).1
        = .error (.documentCleared "/p/a.ts") := by
    decide +kernel
  obtain ⟨hok, hroots, hindex⟩ := hfacts
  exact (hall quotesProperty (plain_built hok) fun node hnode =>
    hroots node.index (Program.index_lt (.inr (.inl hnode))) hnode).1 "/p/a.ts" hindex

end Run

end SymbolGraph
