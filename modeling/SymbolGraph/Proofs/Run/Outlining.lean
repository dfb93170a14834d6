import SymbolGraph.Proofs.Program.Building
import SymbolGraph.Proofs.Run.Containment
import SymbolGraph.Proofs.Run.Occurrences
import SymbolGraph.Proofs.Session.Outlining

/-!
# Proofs — Run — the document symbols of a file mirror its tree

A run that is asked for document symbols shows, for every file that it walks, the outline of the file:
the declarations whose name had a definition range when the walk entered them, each inside the nearest
one above it.  A file without such declarations has no document symbols.

* `Run.entered`: the nodes that the walk of a file enters in a run, each with the session once it was
  entered.
* `Run.Ended.outlined`: what a run shows of the symbols of a file.
-/

namespace SymbolGraph

open SymbolGraph.Action

namespace Store

/-- A document belongs to one file. -/
theorem documentOf_inj {s : Store} {faults : Nat → Option SinkFault} {file other : FileId}
    {document : ElementId} (hs : s.Sound faults) (h : s.DocumentOf file document)
    (h' : s.DocumentOf other document) : file = other := by
  obtain ⟨n, v, hfile, hdocument⟩ := h
  obtain ⟨m, v', hother, hdocument'⟩ := h'
  have hnodup : (documentIds s.elements).Nodup :=
    hs.graph.nodup_ids.sublist (documentIds_sublist _)
  have hn : (documentIds s.elements)[n]? = some document := by
    rw [documentIds, List.getElem?_map, hdocument]
    rfl
  have hm : (documentIds s.elements)[m]? = some document := by
    rw [documentIds, List.getElem?_map, hdocument']
    rfl
  obtain rfl := (List.getElem?_inj (List.getElem?_eq_some_iff.mp hn).1 hnodup).mp
    (hn.trans hm.symm)
  exact Option.some.inj (hfile.symm.trans hother)

end Store

namespace Run

variable {w : Setting} {faults : Nat → Option SinkFault} {s u : Session} {file : FileId}

/-- The nodes that the walk of a file enters in a run over a memory, each with the session once it was
entered. -/
def entered (w : Setting) (faults : Nat → Option SinkFault) (file : FileId) :
    List (NodeId × Session) :=
  match reached? w faults ((walkedFiles w.program).takeWhile fun other => other ≠ file) with
  | some s => Session.entries w file s
  | none   => []

/-- A session between the walks of two files: nothing is known of the symbols of any document. -/
structure Between (w : Setting) (s : Session) : Prop where
  ready : s.Ready w
  empty : ∀ file, s.store.outline file = .empty

/-- The walk of a file, between the walks of others. -/
theorem visitFile_between (hw : w.documentSymbols = true) (hforest : w.program.Forest)
    (hsiblings : w.program.Siblings) (hfile : file ∈ w.program.sourceFiles) (hs : Between w s)
    (h : Session.visitFile w file s = .ok () u) :
    Between w u ∧ s.store.Lasts u.store ∧ ∃ document links, u.store.DocumentOf file document ∧
      symbolLinksIn u.store.elements = symbolLinksIn s.store.elements ++ links ∧
      Store.Presents u.store.elements document (w.program.outline
        (Session.openedBy w (Session.entries w file s)) (w.program.root file)) links := by
  have hproceeds : Session.Proceeds w (fun _ => True) (fun _ => True) (Session.visitFile w file) s
      fun _ t => ∀ below, w.program.Under (w.program.root file) below → Session.Seen w below t :=
    Session.visitWithin_proceeds _ _ (fun _ _ => trivial) fun _ _ => ⟨trivial, fun _ _ => trivial⟩
  obtain ⟨htravels, -⟩ := (hproceeds hs.ready).of_ok h
  obtain ⟨hempty, hshown⟩ :=
    Session.visitFile_presents hw hforest hsiblings hfile hs.ready hs.empty h
  exact ⟨⟨htravels.ready hs.ready, hempty⟩, htravels.lasts, hshown⟩

/-- What is said of a forest is said of its document. -/
theorem presents_document {elements : List Element} {document : ElementId} {forest : List SymbolTree}
    {links : List (ElementId × ElementId)} (h : Store.Presents elements document forest links) :
    ∀ link ∈ links, link.1 = document := by
  rcases h with ⟨-, rfl⟩ | ⟨-, result, -, rfl⟩
  · exact nofun
  · intro link hlink
    rw [List.mem_singleton.mp hlink]

/-- **Walking files** leads only the documents of these files to symbols. -/
theorem visitFiles_links (hw : w.documentSymbols = true) (hforest : w.program.Forest)
    (hsiblings : w.program.Siblings) :
    ∀ (files : List FileId) (s : Session), (∀ file ∈ files, file ∈ w.program.sourceFiles) →
      Between w s → files.forM (Session.visitFile w) s = .ok () u →
      Between w u ∧ s.store.Lasts u.store ∧ ∃ links,
        symbolLinksIn u.store.elements = symbolLinksIn s.store.elements ++ links ∧
        ∀ link ∈ links, ∃ file ∈ files, u.store.DocumentOf file link.1
  | [], s, _, hs, h => by
      cases h
      exact ⟨hs, .refl _, [], (List.append_nil _).symm, nofun⟩
  | file :: files, s, hfiles, hs, h => by
      obtain ⟨_, t, hvisit, hrest⟩ := bind_eq_ok.mp h
      obtain ⟨ht, hlasts, document, links, hdocument, hlinks, hshows⟩ := visitFile_between hw hforest
        hsiblings (hfiles file List.mem_cons_self) hs hvisit
      obtain ⟨hu, hlasts', more, hmore, hof⟩ := visitFiles_links hw hforest hsiblings files t
        (fun other hother => hfiles other (List.mem_cons_of_mem _ hother)) ht hrest
      refine ⟨hu, hlasts.trans hlasts', links ++ more, ?_, fun link hlink => ?_⟩
      · rw [hmore, hlinks, List.append_assoc]
      · rcases List.mem_append.mp hlink with hlink | hlink
        · refine ⟨file, List.mem_cons_self, ?_⟩
          rw [presents_document hshows link hlink]
          exact hlasts'.documentOf hdocument
        · obtain ⟨other, hother, hdocument'⟩ := hof link hlink
          exact ⟨other, List.mem_cons_of_mem _ hother, hdocument'⟩

/-- A run starts between walks, and has led no document to symbols. -/
theorem start_between : Ensures (start w) (Graph.ofSink (.memory faults 0 #[]))
    (fun s _ => Between w s ∧ symbolLinksIn s.store.elements = []) fun _ _ => True := by
  have hskirts : Stays Graph.Skirts (Store.start w.projectRoot) :=
    (Graph.vertex_skirts _).discard.bind fun _ => (Graph.vertex_skirts _).bind fun _ => stays_pure
  have hlinks : Ensures (start w) (Graph.ofSink (.memory faults 0 #[]))
      (fun s _ => symbolLinksIn s.store.elements = []) fun _ _ => True :=
    ensures_bind.mpr ((hskirts _).mono (fun _ _ hg => ensures_bind.mpr (ensures_get.mpr
      (ensures_pure.mpr hg.links))) fun _ _ _ => trivial)
  refine (start_fresh.and hlinks).mono (fun s _ hs => ⟨⟨hs.1.ready, fun file => ?_⟩, hs.2⟩)
    fun _ _ _ => trivial
  unfold Store.outline
  rw [hs.1.documents]
  rfl

/-- What comes after the walks of files leads no document to symbols. -/
theorem finishAll_skirts {summary : Summary} (hs : Between w s)
    (h : finishAll w s = .ok summary u) : s.store.Lasts u.store ∧ s.Skirts u := by
  obtain ⟨v, hshrinks, hconcludes⟩ := (finishAll_ensures hs.ready).of_ok h
  refine ⟨hshrinks.lasts.trans (Store.Concludes.lasts hconcludes), ?_⟩
  obtain ⟨_, t, hproject, h⟩ := bind_eq_ok.mp h
  obtain ⟨_, t', hflush, h⟩ := bind_eq_ok.mp h
  cases h
  have hprojected : s.Skirts t := by
    obtain ⟨store, hprocessed, rfl⟩ := onPart_eq_ok.mp hproject
    exact (Store.projectProcessed_abstains s.store).of_ok hprocessed hs.empty
  exact trans_of Session.Skirts hprojected ((Session.emit_skirts Graph.flush_skirts t).of_ok hflush)

/-- The walk of one file in a run that ended well: the session before it, and what is said of symbols
before it, in it and after it. -/
theorem Ended.exists_walk (hforest : w.program.Forest) (hsiblings : w.program.Siblings)
    (hw : w.documentSymbols = true) (h : Ended w faults s) {before after : List FileId}
    (hfiles : walkedFiles w.program = before ++ file :: after) :
    ∃ m document earlier links later, reached? w faults before = some m ∧
      s.store.DocumentOf file document ∧
      Store.Presents s.store.elements document (w.program.outline
        (Session.openedBy w (Session.entries w file m)) (w.program.root file)) links ∧
      symbolLinksIn s.store.elements = earlier ++ links ++ later ∧
      (∀ link ∈ earlier, ∃ other ∈ before, s.store.DocumentOf other link.1) ∧
      ∀ link ∈ later, ∃ other ∈ after, s.store.DocumentOf other link.1 := by
  have hsource {other : FileId} (hother : other ∈ before ++ file :: after) :
      other ∈ w.program.sourceFiles :=
    mem_sourceFiles_of_walked (hfiles ▸ hother)
  unfold Ended last? at h
  split at h
  · cases h
  · rename_i first graph hstart
    obtain ⟨hfirst, hnone⟩ := start_between.of_ok hstart
    split at h
    · cases h
    · rename_i summary s' hwalk
      cases h
      obtain ⟨_, v, hall, hend⟩ := bind_eq_ok.mp hwalk
      -- The run splits at the file: the walks before it, its own and those after it, then the end.
      have hsplit : (walkedFiles w.program).forM (Session.visitFile w) = (do
          before.forM (Session.visitFile w)
          (file :: after).forM (Session.visitFile w)) := by
        rw [hfiles]
        exact List.forM_append
      rw [hsplit] at hall
      obtain ⟨_, m, hbefore, hrest⟩ := bind_eq_ok.mp hall
      obtain ⟨_, t, hvisit, hafter⟩ := bind_eq_ok.mp hrest
      -- Links of other files end in other documents, so this document's are those of its own walk.
      obtain ⟨hm, hlasts₁, earlier, hearlier, hof₁⟩ := visitFiles_links hw hforest hsiblings before
        first (fun other hother => hsource (List.mem_append_left _ hother)) hfirst hbefore
      obtain ⟨ht, hlasts₂, document, links, hdocument, hlinks, hshows⟩ := visitFile_between hw hforest
        hsiblings (hsource (List.mem_append_right _ List.mem_cons_self)) hm hvisit
      obtain ⟨hv, hlasts₃, later, hlater, hof₃⟩ := visitFiles_links hw hforest hsiblings after t
        (fun other hother => hsource (List.mem_append_right _ (List.mem_cons_of_mem _ hother))) ht
        hafter
      obtain ⟨hlasts₄, hskirts⟩ := finishAll_skirts hv hend
      have hlast := hlasts₃.trans hlasts₄
      refine ⟨m, document, earlier, links, later, ?_, hlast.documentOf hdocument,
        Store.Presents.mono hshows hlast.elements, ?_, fun link hlink => ?_, fun link hlink => ?_⟩
      · unfold reached?
        rw [hstart]
        dsimp only
        rw [hbefore]
      · rw [Store.elements, hskirts.graph.links, ← Store.elements, hlater, hlinks, hearlier, hnone,
          List.nil_append]
      · obtain ⟨other, hother, hof⟩ := hof₁ link hlink
        exact ⟨other, hother, (hlasts₂.trans hlast).documentOf hof⟩
      · obtain ⟨other, hother, hof⟩ := hof₃ link hlink
        exact ⟨other, hother, hlasts₄.documentOf hof⟩

/-- **The document symbols of a file mirror its tree.**  For every file that it walked, a run asked for
document symbols leads the document to one result, which shows the declarations of the file that were
opened, each inside the nearest opened one above it and in the order of the walk; if none was opened it
leads the document to no result. -/
theorem Ended.outlined (hbuilt : ∃ steps, Program.ofSteps steps = .ok w.program)
    (hw : w.documentSymbols = true) (h : Ended w faults s) (hfile : file ∈ walkedFiles w.program) :
    ∃ document forest, s.store.DocumentOf file document ∧
      w.program.DepictsAll (Session.openedBy w (entered w faults file)) (w.program.root file) forest ∧
      Store.Presents s.graph.elements document forest
        ((symbolLinksIn s.graph.elements).filter fun link => link.1 = document) := by
  obtain ⟨steps, hsteps⟩ := hbuilt
  have hforest := Program.ofSteps_forest hsteps
  obtain ⟨before, after, hfiles⟩ := List.append_of_mem hfile
  have hnodup : (before ++ file :: after).Nodup := hfiles ▸ nodup_walkedFiles w.program
  obtain ⟨hnotin, hnotin'⟩ : file ∉ before ∧ file ∉ after := by
    rw [List.nodup_append, List.nodup_cons] at hnodup
    exact ⟨fun hmem => hnodup.2.2 file hmem file List.mem_cons_self rfl, hnodup.2.1.1⟩
  obtain ⟨m, document, earlier, links, later, hreached, hdocument, hshows, hlinks, hearlier, hlater⟩ :=
    h.exists_walk hforest (Program.ofSteps_siblings hsteps) hw hfiles
  have hbefore : (walkedFiles w.program).takeWhile (fun other => other ≠ file) = before := by
    rw [hfiles, List.takeWhile_append_of_pos]
    · simp
    · exact fun other hother => decide_eq_true (ne_of_mem_of_not_mem hother hnotin)
  have hentered : entered w faults file = Session.entries w file m := by
    unfold entered
    rw [hbefore, hreached]
  -- What is said of other files is said of other documents.
  have hother {files : List FileId} {more : List (ElementId × ElementId)} (hnot : file ∉ files)
      (hmore : ∀ link ∈ more, ∃ other ∈ files, s.store.DocumentOf other link.1) :
      more.filter (fun link => link.1 = document) = [] := by
    refine List.filter_eq_nil_iff.mpr fun link hlink heq => hnot ?_
    obtain ⟨other, hother, hof⟩ := hmore link hlink
    rw [of_decide_eq_true heq] at hof
    exact Store.documentOf_inj h.settled.sound hdocument hof ▸ hother
  have hown : links.filter (fun link => link.1 = document) = links :=
    List.filter_eq_self.mpr fun link hlink => decide_eq_true (presents_document hshows link hlink)
  obtain ⟨hrootfile, hkind, habove⟩ := hforest.root file (mem_sourceFiles_of_walked hfile)
  refine ⟨document, w.program.outline (Session.openedBy w (Session.entries w file m))
    (w.program.root file), hdocument, ?_, ?_⟩
  · rw [hentered]
    exact hforest.outline_depicts (Program.index_lt (.inr (.inl hkind))) habove
  · have hlinks : symbolLinksIn s.graph.elements = earlier ++ links ++ later := hlinks
    rw [hlinks, List.filter_append, List.filter_append, hother hnotin hearlier,
      hother hnotin' hlater, hown, List.nil_append, List.append_nil]
    exact hshows

/-- The steps for a class with a method that has a function in its body, and another class that nothing
declares a symbol for. -/
def outliningSteps : List Program.Step :=
  [.file ⟨"/p/a.ts"⟩ "class C { m() { function f() {} } } class D {}",
   .declaration ⟨0⟩ .classDeclaration "class C { m() { function f() {} } }" "C",
   .declaration ⟨1⟩ .methodDeclaration "m() { function f() {} }" "m",
   .nodeAt ⟨3⟩ .other "{ function f() {} }" 0,
   .declaration ⟨5⟩ .functionDeclaration "function f() {}" "f",
   .declaration ⟨0⟩ .classDeclaration "class D {}" "D",
   .symbol "C" .ofClass, .declare ⟨0⟩ ⟨1⟩, .symbol "m" .method, .declare ⟨1⟩ ⟨3⟩, .member ⟨0⟩ ⟨1⟩,
   .symbol "f" .function, .declare ⟨2⟩ ⟨6⟩]

def outlining : Setting := { plain outliningSteps with documentSymbols := true }

/-- The first class is shown with its method in it, and that with the function in it; the second class
has no definition range and is not shown. -/
theorem outlining_shows : ∃ s document result, Ended outlining (fun _ => none) s ∧
    s.store.DocumentOf ⟨0⟩ document ∧
    Element.vertex result (.documentSymbolResult [.node ⟨5⟩ [.node ⟨8⟩ [.node ⟨11⟩ []]]])
      ∈ s.graph.elements ∧
    (symbolLinksIn s.graph.elements).filter (fun link => link.1 = document)
      = [(document, result)] := by
  have hfacts : (Program.ofSteps outliningSteps).isOk = true ∧
      (last? outlining fun _ => none).isSome = true ∧ ⟨0⟩ ∈ walkedFiles outlining.program := by
    decide +kernel
  obtain ⟨hok, hends, hfile⟩ := hfacts
  have hopened : ∃ opened, opened = Session.openedBy outlining (entered outlining (fun _ => none) ⟨0⟩) ∧
      outlining.program.openedIn opened (outlining.program.root ⟨0⟩) none = [⟨1⟩] ∧
      outlining.program.openedIn opened ⟨1⟩ (some ⟨1⟩) = [⟨3⟩] ∧
      outlining.program.openedIn opened ⟨3⟩ (some ⟨3⟩) = [⟨6⟩] ∧
      outlining.program.openedIn opened ⟨6⟩ (some ⟨6⟩) = [] ∧
      opened ⟨1⟩ = some ⟨5⟩ ∧ opened ⟨3⟩ = some ⟨8⟩ ∧ opened ⟨6⟩ = some ⟨11⟩ :=
    ⟨_, rfl, by decide +kernel⟩
  obtain ⟨opened, hopened, hroot, hclass, hmethod, hfunction, hfirst, hsecond, hthird⟩ := hopened
  obtain ⟨s, hs⟩ := Option.isSome_iff_exists.mp hends
  obtain ⟨document, forest, hdocument, hdepicts, hshows⟩ :=
    Ended.outlined (w := outlining) (plain_built hok) rfl hs hfile
  unfold Program.DepictsAll at hdepicts
  rw [← hopened, hroot] at hdepicts
  obtain ⟨members, rfl, hmembers⟩ := Program.Depicts.eq_singleton hdepicts hfirst
  rw [hclass] at hmembers
  obtain ⟨locals, rfl, hlocals⟩ := Program.Depicts.eq_singleton hmembers hsecond
  rw [hmethod] at hlocals
  obtain ⟨below, rfl, hbelow⟩ := Program.Depicts.eq_singleton hlocals hthird
  rw [hfunction] at hbelow
  cases hbelow
  rcases hshows with ⟨hnone, -⟩ | ⟨-, result, hresult, hlinks⟩
  · cases hnone
  · exact ⟨s, document, result, hs, hdocument, hresult, hlinks⟩

end Run

end SymbolGraph
