import SymbolGraph.Proofs.Program.Building
import SymbolGraph.Proofs.Run.Walked
import SymbolGraph.Proofs.Session.Turning

/-!
# Proofs — Run — a file that was left is flushed

When the walk leaves a file, no record has an open partition for it any more, except for records that
are local to the root of a declaration file; and from then on no partition is opened for it.  The
first is due to the registration that comes with every partition, the second to the document of the
file, which has ended.

* `Store.Recedes`: no partition for a file is opened.
* `Session.Turns.finishes`: no step opens one for a file that has ended.
* `Run.flushed_for_good`: a file that was left stays flushed.
-/

namespace SymbolGraph

namespace Store

variable {w : Setting} {leaving : Option NodeId} {s t u : Store} {file : FileId}

/-- No partition for a file is opened: who has one later had it before, and what is open later was
open before. -/
def Recedes (file : FileId) (s t : Store) : Prop :=
  ∀ (i : Nat) (r' : Record), t.records[i]? = some r' → r'.partitions.get? file ≠ none →
    ∃ r, s.records[i]? = some r ∧ r.Recedes file r' ∧ r'.scope = r.scope

instance : IsPreorder Store (Recedes file) where
  refl _ _ r hr _ := ⟨r, hr, .refl file r, rfl⟩
  trans _ _ _ h h' i r'' hr'' hknown := by
    obtain ⟨r', hr', hback', hscope'⟩ := h' i r'' hr'' hknown
    obtain ⟨r, hr, hback, hscope⟩ := h i r' hr' (hback'.known hknown)
    exact ⟨r, hr, hback.trans hback', hscope'.trans hscope⟩

theorem recedes_of_renews (h : Renews (Record.Recedes file) s.records t.records)
    (hscope : Renews Record.Endures s.records t.records) : s.Recedes file t := by
  intro i r' hr' _
  obtain ⟨r, hr, hback⟩ := h.backward hr'
  obtain ⟨r₁, hr₁, hendures⟩ := hscope.backward hr'
  cases hr.symm.trans hr₁
  exact ⟨r, hr, hback, hendures.scope⟩

/-- What was flushed stays so. -/
theorem Recedes.flushed (h : s.Recedes file t) (hs : s.Flushed w file) : t.Flushed w file := by
  rintro id ⟨r', hr', partition, hlive⟩
  obtain ⟨r, hr, hback, hscope⟩ := h id.index r' hr' (hlive ▸ nofun)
  obtain ⟨⟨r₁, hr₁, hroot⟩, hdeclares⟩ := hs id ⟨r, hr, hback.live ⟨partition, hlive⟩⟩
  cases hr.symm.trans hr₁
  exact ⟨⟨r', hr', hscope.trans hroot⟩, hdeclares⟩

/-- A file has ended, and stays so, and nothing is opened for it. -/
def Finishes (file : FileId) (s t : Store) : Prop :=
  s.documents.get? file = some .cleared → s.Recedes file t ∧ t.documents.get? file = some .cleared

instance : IsPreorder Store (Finishes file) where
  refl s h := ⟨refl_of (Recedes file) s, h⟩
  trans _ _ _ h h' hs := by
    obtain ⟨hrecedes, ht⟩ := h hs
    obtain ⟨hrecedes', hu⟩ := h' ht
    exact ⟨trans_of (Recedes file) hrecedes hrecedes', hu⟩

theorem Edited.finishes (h : Edited w s t) : s.Finishes file t := by
  induction h with
  | refl => exact refl_of (Finishes file) s
  | tail _ hstep ih =>
      refine trans_of (Finishes file) ih fun hended => ⟨recedes_of_renews (hstep.recedes hended) ?_,
        hstep.ended hended⟩
      exact hstep.revises.mono fun _ _ hrevises => hrevises.endures

theorem Departed.finishes (h : Departed w leaving s t) : s.Finishes file t := by
  induction h with
  | refl => exact refl_of (Finishes file) s
  | tail _ hstep ih =>
      refine trans_of (Finishes file) ih fun hended => ⟨?_, hstep.ended hended⟩
      exact recedes_of_renews (hstep.recedes fun _ => hended) hstep.endures

/-- A new record has no partition. -/
theorem finishes_pushed {fresh : Record} {graph : Graph} (hnone : fresh.partitions = ∅) :
    s.Finishes file { s.pushed fresh with graph } := by
  refine fun hended => ⟨fun i r' hr' hknown => ?_, hended⟩
  rcases getElem?_pushed.mp hr' with hr | ⟨-, rfl⟩
  · exact ⟨r', hr, .refl file r', rfl⟩
  · rw [hnone] at hknown
    exact absurd rfl hknown

end Store

namespace Session

variable {w : Setting}

/-- **No step opens anything for a file that has ended.** -/
theorem Turns.finishes {mark : Option Milestone} {s t : Session} (h : Turns w mark s t)
    (file : FileId) : s.store.Finishes file t.store := by
  cases h with
  | edits hedited => exact hedited.finishes
  | reserves =>
      exact fun hended => ⟨fun _ r hr _ => ⟨r, hr, .refl file r, rfl⟩, hended⟩
  | abandons =>
      exact fun hended => ⟨fun _ r hr _ => ⟨r, hr, .refl file r, rfl⟩, hended⟩
  | admits _ hadmits hedited =>
      refine trans_of (Store.Finishes file) ?_ hedited.finishes
      rw [hadmits.store]
      exact Store.finishes_pushed rfl
  | refuses _ hrefuses =>
      rw [hrefuses.store]
      exact Store.finishes_pushed rfl
  | arrives => exact refl_of (Store.Finishes file) _
  | leaves hdeparted => exact hdeparted.finishes
  | ends hedited => exact hedited.finishes
  | concludes hdeparted => exact hdeparted.finishes

end Session

namespace Run

open SymbolGraph.Session

variable {w : Setting}

/-- The files that the walk has left have ended and are flushed. -/
def Left (w : Setting) (past : List Milestone) (s : Session) : Prop :=
  ∀ file, .file file ∈ past → s.store.documents.get? file = some .cleared ∧ s.store.Flushed w file

theorem left_step (hrooted : w.program.Rooted) {past : List Milestone} {mark : Option Milestone}
    {s t : Session} (h : Turns w mark s t) (hs : Left w past s) : Left w (past ++ mark.toList) t := by
  intro file hfile
  rcases List.mem_append.mp hfile with hbefore | hnow
  · obtain ⟨hended, hflushed⟩ := hs file hbefore
    obtain ⟨hrecedes, hstill⟩ := h.finishes file hended
    exact ⟨hstill, hrecedes.flushed hflushed⟩
  · rw [Option.mem_toList] at hnow
    cases hnow
    cases h with
    | ends _ hended hflushed => exact ⟨hended, hflushed hrooted⟩

/-- From a stop to a later one nothing is opened for a file that the walk has left by then. -/
def NeverReopens (earlier later : List Milestone × Session) : Prop :=
  (∀ file, .file file ∈ earlier.1 → .file file ∈ later.1) ∧
    ∀ file, .file file ∈ earlier.1 → earlier.2.store.Recedes file later.2.store

instance : IsPreorder (List Milestone × Session) NeverReopens where
  refl _ := ⟨fun _ h => h, fun file _ => refl_of (Store.Recedes file) _⟩
  trans _ _ _ h h' := ⟨fun file hfile => h'.1 file (h.1 file hfile),
    fun file hfile => trans_of (Store.Recedes file) (h.2 file hfile) (h'.2 file (h.1 file hfile))⟩

/-- **A file that was left is flushed for good.**  For a program whose source files are only the roots
of its files, at every stop of a run behind which the walk has left a file, every record with an open
partition for the file is local to its root, and the file is a declaration file; and at no later stop
is there a partition for the file that was not there before, or open again.  The stops are those of a
plan that does what the run does (`Session.Plan.run_walkAll`), up to its end
(`Run.index_mem_stops`). -/
theorem flushed_for_good (sink : Sink) (hbuilt : ∃ steps, Program.ofSteps steps = .ok w.program)
    (hroots : ∀ node, w.program.kind node = .sourceFile →
      ∃ file ∈ w.program.sourceFiles, node = w.program.root file) :
    (∀ past s, (past, s) ∈ stops w sink → ∀ file, .file file ∈ past →
      ∀ (i : Nat) (r : Record), s.store.records[i]? = some r → r.OpenFor file →
        r.scope = some (w.program.root file) ∧ w.program.isDeclarationFile file = true) ∧
    (stops w sink).Pairwise fun earlier later => ∀ file, .file file ∈ earlier.1 →
      ∀ (i : Nat) (r' : Record), later.2.store.records[i]? = some r' →
        r'.partitions.get? file ≠ none → ∃ r, earlier.2.store.records[i]? = some r ∧
          r.partitions.get? file ≠ none ∧ (r'.OpenFor file → r.OpenFor file) := by
  obtain ⟨steps, hsteps⟩ := hbuilt
  have hrooted : w.program.Rooted := ⟨(Program.ofSteps_forest hsteps).root, hroots⟩
  constructor
  · intro past s hstop file hfile i r hr hopen
    have hleft := stops_keep (Left w) (fun _ _ _ => nofun)
      (fun _ _ _ _ hturns => left_step hrooted hturns) (past, s) hstop
    obtain ⟨⟨r', hr', hscope⟩, hdeclares⟩ := (hleft file hfile).2 ⟨i⟩ ⟨r, hr, hopen⟩
    cases hr.symm.trans hr'
    exact ⟨hscope, hdeclares⟩
  -- Once left, a file stays left, and no later turn opens a partition for it.
  · have hnever : (stops w sink).Pairwise NeverReopens :=
      stops_pairwise (Left w) (fun _ _ => nofun) fun past mark s t hturns hs =>
        ⟨left_step hrooted hturns hs, fun _ hfile => List.mem_append_left _ hfile,
          fun file hfile => (hturns.finishes file (hs file hfile).1).1⟩
    refine hnever.imp fun h file hfile i r' hr' hknown => ?_
    obtain ⟨r, hr, hback, -⟩ := h.2 file hfile i r' hr' hknown
    exact ⟨r, hr, hback.known hknown, hback.live⟩

/-- The steps for a module that is a declaration file with a variable that it does not export, and
for another file that mentions the variable. -/
def declaringSteps : List Program.Step :=
  [.file ⟨"/p/a.d.ts"⟩ "let x", .module ⟨0⟩, .declaration ⟨0⟩ .variableDeclaration "x" "x",
   .symbol "x" .blockScopedVariable, .declare ⟨1⟩ ⟨1⟩, .file ⟨"/p/b.ts"⟩ "x",
   .identifier ⟨3⟩ "x" 0 ⟨1⟩]

def declaring : Setting := plain declaringSteps

/-- When the walk has left both files, the variable still has an open partition for the declaration
file, to whose root it is local, and nobody has one for the other file. -/
theorem declaring_flushed : ∃ past s, (past, s) ∈ stops declaring .inMemory ∧
    .file ⟨0⟩ ∈ past ∧ .file ⟨1⟩ ∈ past ∧
    (∃ r, s.store.records[1]? = some r ∧ r.OpenFor ⟨0⟩ ∧
      r.scope = some (declaring.program.root ⟨0⟩) ∧ declaring.program.isDeclarationFile ⟨0⟩) ∧
    ∀ (i : Nat) (r : Record), s.store.records[i]? = some r → ¬ r.OpenFor ⟨1⟩ := by
  have hfacts : (Program.ofSteps declaringSteps).isOk = true ∧
      (∀ i < declaring.program.nodes.size, declaring.program.kind ⟨i⟩ = .sourceFile →
        ∃ file ∈ declaring.program.sourceFiles, ⟨i⟩ = declaring.program.root file) ∧
      declaring.program.isDeclarationFile ⟨1⟩ = false := by
    decide +kernel
  have hrun : (stops declaring .inMemory).any (fun stop =>
      .file ⟨0⟩ ∈ stop.1 ∧ .file ⟨1⟩ ∈ stop.1 ∧ stop.2.store.records[1]?.any fun r =>
        (r.partitions.get? ⟨0⟩).any fun slot => slot.value?.isSome) = true := by
    decide +kernel
  obtain ⟨hok, hroots, hplain⟩ := hfacts
  obtain ⟨⟨past, s⟩, hstop, hrun⟩ := List.any_eq_true.mp hrun
  obtain ⟨hfirst, hsecond, hopen⟩ := of_decide_eq_true hrun
  obtain ⟨r, hr, hopen⟩ := (Option.any_eq_true _ _).mp hopen
  obtain ⟨slot, hslot, hlive⟩ := (Option.any_eq_true _ _).mp hopen
  have hopen : r.OpenFor ⟨0⟩ := by
    cases slot with
    | live partition => exact ⟨partition, hslot⟩
    | cleared => cases hlive
  obtain ⟨hflushed, -⟩ := flushed_for_good .inMemory (plain_built hok)
    fun node hnode => hroots node.index (Program.index_lt (.inr (.inl hnode))) hnode
  refine ⟨past, s, hstop, hfirst, hsecond, ⟨r, hr, hopen, ?_⟩, fun i r' hr' hopen' => ?_⟩
  · exact hflushed past s hstop ⟨0⟩ hfirst 1 r hr hopen
  · obtain ⟨-, hdeclares⟩ := hflushed past s hstop ⟨1⟩ hsecond i r' hr' hopen'
    cases hplain.symm.trans hdeclares

end Run

end SymbolGraph
