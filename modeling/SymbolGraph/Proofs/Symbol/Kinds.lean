import Mathlib.Data.List.Induction
import Mathlib.Data.Set.Insert
import SymbolGraph.Program.Build
import SymbolGraph.Proofs.Symbol.Paths

/-!
# Proofs — Symbol — the kind of the first question

An export path depends on the location kind of the question in one place: at the top of the chain of
parents, where a symbol without a parent may go by its own name.  Every path on the way is
remembered, by symbol alone; so among all questions whose chains have one top, the kind of the first
one decides.

* `Program.top`: the top of a chain.
* `Symbols.exportPath_first`: an answer after any questions is the answer that new tables give for
  the kind of the first question with the same top.
* `Symbols.exportPath_fresh`: so an answer is that of new tables when the two kinds agree about the
  top.  `Symbols.not_forall_exportPath_fresh`: and not always.
-/

namespace SymbolGraph

variable {p : Program} {kind : Option LocationKind} {a b : SymbolRef} {path : Option String}
  {play : Set SymbolRef}

namespace Program

/-- The last symbol of a chain of parents, up to `fuel` symbols away.  A file has no parent that
matters. -/
def topWithin (p : Program) : (fuel : Nat) → SymbolRef → SymbolRef
  | 0,        a => a
  | fuel + 1, a =>
      if p.isSourceFileSymbol a then a
      else match p.parentSymbol a with
        | none        => a
        | some parent => p.topWithin fuel parent

/-- The top of the chain of parents of a symbol. -/
def top (p : Program) (a : SymbolRef) : SymbolRef := p.topWithin (p.symbols.size + 3) a

/-- Whether a symbol at the top of a chain has a path: it is a file, or goes by its name. -/
def isReached (p : Program) (kind : Option LocationKind) (a : SymbolRef) : Bool :=
  p.isSourceFileSymbol a || p.isExportedBare kind a

/-- No symbol in play is above itself. -/
def ParentsAcyclic (p : Program) (play : Set SymbolRef) : Prop :=
  ∀ a ∈ play, ¬ Relation.TransGen (fun a b => p.parentSymbol a = some b) a a

end Program

namespace Overrides

@[simp] theorem parentOf_empty : ({} : Overrides).parentOf p a = p.parentSymbol a := by
  simp [parentOf]

theorem within_empty : ({} : Overrides).Within play := ⟨by simp, by simp⟩

/-- Without overrides, only parents are followed. -/
theorem parent_of_next?_empty (h : ({} : Overrides).next? p kind a = some b) :
    p.isSourceFileSymbol a = false ∧ p.parentSymbol a = some b := by
  unfold next? at h
  by_cases hfile : p.isSourceFileSymbol a = true
  · simp [hfile] at h
  · cases hparent : p.parentSymbol a with
    | none => simp [hfile, hparent] at h
    | some parent => simpa [hfile, hparent] using h

theorem ends_empty (hplay : p.Distinguishes play) (hacyclic : p.ParentsAcyclic play) (ha : a ∈ play) :
    ({} : Overrides).Ends p kind (p.symbols.size + 3) a := by
  refine ends_of_acyclic hplay within_empty (fun b hb hcircle => hacyclic b hb ?_) ha
  exact Relation.TransGen.mono (fun _ _ hnext => (parent_of_next?_empty hnext).2) _ _ hcircle

end Overrides

/-! ### The top of a chain -/

namespace Program

theorem topWithin_of_parent {fuel : Nat} (hfile : p.isSourceFileSymbol a = false)
    (hparent : p.parentSymbol a = some b) : p.topWithin (fuel + 1) a = p.topWithin fuel b := by
  simp [topWithin, hfile, hparent]

/-- Fuel beyond the end of the chain does not matter. -/
theorem topWithin_eq {fuel fuel' : Nat} (h : ({} : Overrides).Ends p kind fuel a)
    (h' : ({} : Overrides).Ends p kind fuel' a) : p.topWithin fuel a = p.topWithin fuel' a := by
  induction fuel generalizing fuel' a with
  | zero => exact h.elim
  | succ fuel ih =>
      cases fuel' with
      | zero => exact h'.elim
      | succ fuel' =>
          by_cases hfile : p.isSourceFileSymbol a = true
          · simp [topWithin, hfile]
          · cases hparent : p.parentSymbol a with
            | none => simp [topWithin, hfile, hparent]
            | some parent =>
                have hnext : ({} : Overrides).next? p kind a = some parent :=
                  Overrides.next?_of_parent (by simpa using hfile) (by simpa using hparent)
                simp [topWithin, hfile, hparent, ih (h parent hnext) (h' parent hnext)]

theorem top_of_file (hfile : p.isSourceFileSymbol a = true) : p.top a = a := by
  simp [top, topWithin, hfile]

theorem top_of_none (hparent : p.parentSymbol a = none) : p.top a = a := by
  simp [top, topWithin, hparent]

/-- A symbol and its parent have one top. -/
theorem top_parent (hplay : p.Distinguishes play) (hacyclic : p.ParentsAcyclic play) (ha : a ∈ play)
    (hfile : p.isSourceFileSymbol a = false) (hparent : p.parentSymbol a = some b) :
    p.top b = p.top a := by
  have hends : ({} : Overrides).Ends p none (p.symbols.size + 3) a :=
    Overrides.ends_empty hplay hacyclic ha
  rw [top, top, topWithin_of_parent hfile hparent]
  exact topWithin_eq (Overrides.ends_empty hplay hacyclic (hplay.parent a ha b hparent))
    (hends b (Overrides.next?_of_parent hfile (by simpa using hparent)))

end Program

/-- Without overrides, the kind matters at the top only. -/
theorem Overrides.PathOf.of_reached (hplay : p.Distinguishes play)
    (hacyclic : p.ParentsAcyclic play) {kind' : Option LocationKind}
    (h : ({} : Overrides).PathOf p kind a path) (ha : a ∈ play)
    (hreached : p.isReached kind (p.top a) = p.isReached kind' (p.top a)) :
    ({} : Overrides).PathOf p kind' a path := by
  induction h with
  | file hfile => exact .file hfile
  | bare hfile hparent hbare =>
      rw [parentOf_empty] at hparent
      refine .bare hfile (by simpa using hparent) ?_
      simpa [Program.top_of_none hparent, Program.isReached, hfile, hbare] using hreached
  | hidden hfile hparent hbare hforward =>
      rw [parentOf_empty] at hparent
      refine .hidden hfile (by simpa using hparent) ?_ hforward
      simpa [Program.top_of_none hparent, Program.isReached, hfile, hbare] using hreached
  | forwarded _ _ _ hforward _ _ => simp at hforward
  | child hfile hparent _ ih =>
      have hparent' := hparent
      rw [parentOf_empty] at hparent'
      refine .child hfile hparent (ih (hplay.parent _ ha _ hparent') ?_)
      rwa [Program.top_parent hplay hacyclic ha hfile hparent']

namespace Symbols

variable {s : Symbols} {fuel : Nat} {first : SymbolRef → Option (Option LocationKind)}

/-- A question: a symbol and a location kind. -/
structure Question where
  symbol : SymbolRef
  kind   : Option LocationKind

/-- The tables after some questions, from the beginning. -/
def asked (p : Program) (questions : List Question) : Symbols :=
  questions.foldl (fun s question => (exportPath p question.symbol question.kind s).2) {}

/-- The kind of the first question whose chain has a certain top. -/
def firstKind (p : Program) (questions : List Question) (top : SymbolRef) :
    Option (Option LocationKind) :=
  (questions.find? fun question => p.top question.symbol = top).map Question.kind

/-! ### Asking -/

/-- Whether the path of a symbol is remembered. -/
def Knows (p : Program) (s : Symbols) (a : SymbolRef) : Prop :=
  s.exportPaths.get? (p.key a) ≠ none

/-- Nothing is asserted, every path that is remembered was worked out for the kind that `first`
gives for its top, and the path of the top is remembered as well. -/
structure Decided (p : Program) (play : Set SymbolRef)
    (first : SymbolRef → Option (Option LocationKind)) (s : Symbols) : Prop where
  overrides : s.overrides = {}
  paths     : ∀ a ∈ play, ∀ path, s.exportPaths.get? (p.key a) = some path →
    ∃ kind, first (p.top a) = some kind ∧ ({} : Overrides).PathOf p kind a path
  tops      : ∀ a ∈ play, s.Knows p a → s.Knows p (p.top a)

/-- What a question about a symbol does and answers, when `kind` is the kind that decides. -/
structure Settled (p : Program) (play : Set SymbolRef)
    (first : SymbolRef → Option (Option LocationKind)) (kind : Option LocationKind) (a : SymbolRef)
    (s : Symbols) (r : ExportAnswer × Symbols) : Prop where
  decided : r.2.Decided p play first
  kept    : ∀ b, s.Knows p b → r.2.Knows p b
  path    : ({} : Overrides).PathOf p kind a r.1.path
  plain   : r.1.consulted = false
  top     : p.top a = a ∨ r.2.Knows p (p.top a)

theorem knows_noting {answer : ExportAnswer} (hplain : answer.consulted = false) :
    (s.noting (p.key a) answer).Knows p b ↔ p.key b = p.key a ∨ s.Knows p b := by
  simp only [Knows, Symbols.noting, hplain, Bool.false_eq_true, if_false, Table.get?_insert]
  by_cases hkey : p.key b = p.key a
  · simp [hkey]
  · simp [hkey]

/-- An answer is remembered for later. -/
theorem Settled.noting {r : ExportAnswer × Symbols} (hplay : p.Distinguishes play) (ha : a ∈ play)
    (hfirst : first (p.top a) = some kind) (h : Settled p play first kind a s r) :
    Settled p play first kind a s (r.1, r.2.noting (p.key a) r.1) := by
  have hknows (b : SymbolRef) (hb : r.2.Knows p b) : (r.2.noting (p.key a) r.1).Knows p b :=
    (knows_noting h.plain).mpr (.inr hb)
  have htop : (r.2.noting (p.key a) r.1).Knows p (p.top a) := by
    rcases h.top with heq | hknown
    · exact (knows_noting h.plain).mpr (.inl (by rw [heq]))
    · exact hknows _ hknown
  refine ⟨⟨by simp [h.decided.overrides], fun b hb path hpath => ?_, fun b hb hknown => ?_⟩,
    fun b hb => hknows b (h.kept b hb), h.path, h.plain, .inr htop⟩
  · simp only [Symbols.noting, h.plain, Bool.false_eq_true, if_false, Table.get?_insert] at hpath
    by_cases hkey : p.key b = p.key a
    · rw [if_pos hkey] at hpath
      cases hpath
      rw [hplay.inj b hb a ha hkey]
      exact ⟨kind, hfirst, h.path⟩
    · rw [if_neg hkey] at hpath
      exact h.decided.paths b hb path hpath
  · rcases (knows_noting h.plain).mp hknown with hkey | hknown
    · rwa [hplay.inj b hb a ha hkey]
    · exact hknows _ (h.decided.tops b hb hknown)

/-- One round about a symbol that is not remembered.  At the top, the kind that decides is that of
the question; below it, the parent knows. -/
theorem deriveExportPath_settled {ask : SymbolRef → StateM Symbols ExportAnswer}
    {decisive : Option LocationKind} (h : s.Decided p play first)
    (htop : p.top a = a → decisive = kind)
    (hask : ∀ b, p.isSourceFileSymbol a = false → p.parentSymbol a = some b →
      Settled p play first decisive b s (ask b s) ∧ (ask b s).2.Knows p (p.top a)) :
    Settled p play first decisive a s (deriveExportPath p kind ask a s) := by
  generalize hr : deriveExportPath p kind ask a s = r
  have hderives := deriveExportPath_derives p kind ask a s
  rw [hr] at hderives
  cases hderives with
  | file hfile => exact ⟨h, fun _ hb => hb, .file hfile, rfl, .inl (Program.top_of_file hfile)⟩
  | bare hfile hparent hbare =>
      rw [h.overrides] at hparent
      have hself : p.top a = a := Program.top_of_none (by simpa using hparent)
      rw [htop hself]
      exact ⟨h, fun _ hb => hb, .bare hfile hparent hbare, rfl, .inl hself⟩
  | hidden hfile hparent hbare hforward =>
      rw [h.overrides] at hparent hforward
      have hself : p.top a = a := Program.top_of_none (by simpa using hparent)
      rw [htop hself]
      exact ⟨h, fun _ hb => hb, .hidden hfile hparent hbare hforward, rfl, .inl hself⟩
  | forwarded forward _ _ _ hforward =>
      rw [h.overrides] at hforward
      simp at hforward
  | child parent hfile hparent =>
      rw [h.overrides] at hparent ⊢
      obtain ⟨habove, hknown⟩ := hask parent hfile (by simpa using hparent)
      refine ⟨habove.decided, habove.kept, .child hfile hparent habove.path, ?_, .inr hknown⟩
      simp [habove.plain, Overrides.exports]

/-- Asking about a symbol whose top is remembered, or asked about with the kind that decides. -/
theorem exportPathWithin_settled (hplay : p.Distinguishes play) (hacyclic : p.ParentsAcyclic play)
    {decisive : Option LocationKind} (fuel : Nat) :
    ∀ a s, s.Decided p play first → a ∈ play → ({} : Overrides).Ends p kind fuel a →
      first (p.top a) = some decisive → (decisive = kind ∨ s.Knows p (p.top a)) →
      Settled p play first decisive a s (exportPathWithin p kind fuel a s) ∧
        (exportPathWithin p kind fuel a s).2.Knows p (p.top a) := by
  induction fuel with
  | zero => exact fun _ _ _ _ hends => hends.elim
  | succ fuel ih =>
      intro a s h ha hends hfirst hdecisive
      cases hkept : s.exportPaths.get? (p.key a) with
      | some path =>
          rw [exportPathWithin_of_some hkept]
          obtain ⟨decisive', hfirst', hpath⟩ := h.paths a ha path hkept
          cases hfirst.symm.trans hfirst'
          have htop := h.tops a ha (by simp [Knows, hkept])
          exact ⟨⟨h, fun _ hb => hb, hpath, rfl, .inr htop⟩, htop⟩
      | none =>
          have hround : Settled p play first decisive a s
              -- A symbol that decides for itself has not been asked before, so the kind is the
              -- given one; a child is decided where its parent is, with the same top.
              (deriveExportPath p kind (exportPathWithin p kind fuel) a s) := by
            refine deriveExportPath_settled h (fun hself => ?_) fun b hfile hparent => ?_
            · rw [hself] at hdecisive
              exact hdecisive.resolve_right (by simp [Knows, hkept])
            · have htop := Program.top_parent hplay hacyclic ha hfile hparent
              rw [← htop] at hfirst hdecisive ⊢
              exact ih b s h (hplay.parent a ha b hparent)
                (hends b (Overrides.next?_of_parent hfile (by simpa using hparent))) hfirst hdecisive
          rw [exportPathWithin_of_none hkept]
          have hnoted := hround.noting hplay ha hfirst
          refine ⟨hnoted, hnoted.decided.tops a ha ?_⟩
          exact (knows_noting hround.plain).mpr (.inl rfl)

/-! ### The kind of the first question -/

theorem firstKind_concat (questions : List Question) (question : Question) (top : SymbolRef) :
    firstKind p (questions ++ [question]) top
      = (firstKind p questions top).or
          (if p.top question.symbol = top then some question.kind else none) := by
  unfold firstKind
  rw [List.find?_append]
  cases questions.find? fun question => p.top question.symbol = top with
  | some earlier => simp
  | none =>
      by_cases htop : p.top question.symbol = top
      · simp [htop]
      · simp [htop]

/-- What was decided stays decided as questions are added. -/
theorem Decided.mono {first' : SymbolRef → Option (Option LocationKind)}
    (h : s.Decided p play first)
    (hfirst : ∀ top kind, first top = some kind → first' top = some kind) :
    s.Decided p play first' where
  overrides := h.overrides
  paths a ha path hpath := by
    obtain ⟨kind, hkind, hof⟩ := h.paths a ha path hpath
    exact ⟨kind, hfirst _ _ hkind, hof⟩
  tops := h.tops

/-- One more question: the kind that decides is that of the first question with the same top. -/
theorem exportPath_settled (hplay : p.Distinguishes play) (hacyclic : p.ParentsAcyclic play)
    {questions : List Question} (h : s.Decided p play (firstKind p questions))
    (hknown : ∀ a ∈ play, firstKind p questions (p.top a) ≠ none → s.Knows p (p.top a))
    {question : Question} (hquestion : question.symbol ∈ play) :
    Settled p play (firstKind p (questions ++ [question]))
        ((firstKind p questions (p.top question.symbol)).getD question.kind) question.symbol s
        (exportPathWithin p question.kind (p.symbols.size + 3) question.symbol s) ∧
      (exportPathWithin p question.kind (p.symbols.size + 3) question.symbol s).2.Knows p
        (p.top question.symbol) := by
  refine exportPathWithin_settled hplay hacyclic _ _ _ (h.mono fun top kind hkind => ?_) hquestion
    (Overrides.ends_empty hplay hacyclic hquestion) ?_ ?_
  · rw [firstKind_concat, hkind, Option.some_or]
  · rw [firstKind_concat]
    cases firstKind p questions (p.top question.symbol) with
    | none => simp
    | some kind => simp
  · cases hkind : firstKind p questions (p.top question.symbol) with
    | none => exact .inl rfl
    | some kind => exact .inr (hknown _ hquestion (by simp [hkind]))

theorem asked_concat (p : Program) (questions : List Question) (question : Question) :
    asked p (questions ++ [question])
      = (exportPath p question.symbol question.kind (asked p questions)).2 := by
  rw [asked, List.foldl_concat]
  rfl

/-- After any questions, what is remembered was worked out for the kinds of the first ones, and all
their tops are remembered. -/
theorem asked_decided (hplay : p.Distinguishes play) (hacyclic : p.ParentsAcyclic play)
    {questions : List Question} (hquestions : ∀ question ∈ questions, question.symbol ∈ play) :
    (asked p questions).Decided p play (firstKind p questions) ∧
      ∀ a ∈ play, firstKind p questions (p.top a) ≠ none → (asked p questions).Knows p (p.top a) := by
  induction questions using List.reverseRecOn with
  | nil => exact ⟨⟨rfl, by simp [asked], by simp [asked, Knows]⟩, by simp [firstKind]⟩
  | append_singleton questions question ih =>
      obtain ⟨hdecided, hknown⟩ := ih fun q hq => hquestions q (List.mem_append_left _ hq)
      obtain ⟨hsettled, htop⟩ := exportPath_settled hplay hacyclic hdecided hknown
        (hquestions question (by simp))
      rw [asked_concat]
      refine ⟨hsettled.decided, fun a ha hfirst => ?_⟩
      rw [firstKind_concat] at hfirst
      by_cases hsame : p.top question.symbol = p.top a
      · rw [← hsame]
        exact htop
      · rw [if_neg hsame, Option.or_none] at hfirst
        exact hsettled.kept _ (hknown a ha hfirst)

/-- The answer after any questions is a path for the kind of the first one with the same top. -/
theorem exportPath_asked (hplay : p.Distinguishes play) (hacyclic : p.ParentsAcyclic play)
    {questions : List Question} (hquestions : ∀ question ∈ questions, question.symbol ∈ play)
    (ha : a ∈ play) (kind : Option LocationKind) :
    ({} : Overrides).PathOf p ((firstKind p questions (p.top a)).getD kind) a
      (exportPath p a kind (asked p questions)).1 := by
  obtain ⟨hdecided, hknown⟩ := asked_decided hplay hacyclic hquestions
  have hquestion : (Question.mk a kind).symbol ∈ play := ha
  exact (exportPath_settled hplay hacyclic hdecided hknown hquestion).1.path

/-- The answer of new tables is a path for the kind of the question. -/
theorem exportPath_new (hplay : p.Distinguishes play) (hacyclic : p.ParentsAcyclic play)
    (ha : a ∈ play) (kind : Option LocationKind) :
    ({} : Overrides).PathOf p kind a (exportPath p a kind {}).1 :=
  exportPath_asked hplay hacyclic (List.forall_mem_nil _) ha kind

/-- **The first question decides.**  The answer after any questions is that of new tables, for the
kind of the first question whose chain has the same top. -/
theorem exportPath_first (hplay : p.Distinguishes play) (hacyclic : p.ParentsAcyclic play)
    {questions : List Question} (hquestions : ∀ question ∈ questions, question.symbol ∈ play)
    (ha : a ∈ play) (kind : Option LocationKind) :
    (exportPath p a kind (asked p questions)).1
      = (exportPath p a ((firstKind p questions (p.top a)).getD kind) {}).1 :=
  (exportPath_asked hplay hacyclic hquestions ha kind).unique (exportPath_new hplay hacyclic ha _)

/-- **Earlier questions do not matter**, when the first one whose chain has the same top agrees with
this one on whether the top has a path. -/
theorem exportPath_fresh (hplay : p.Distinguishes play) (hacyclic : p.ParentsAcyclic play)
    {questions : List Question} (hquestions : ∀ question ∈ questions, question.symbol ∈ play)
    (ha : a ∈ play) (kind : Option LocationKind)
    (hagree : p.isReached ((firstKind p questions (p.top a)).getD kind) (p.top a)
      = p.isReached kind (p.top a)) :
    (exportPath p a kind (asked p questions)).1 = (exportPath p a kind {}).1 :=
  ((exportPath_asked hplay hacyclic hquestions ha kind).of_reached hplay hacyclic ha hagree).unique
    (exportPath_new hplay hacyclic ha kind)

/-- A variable of a file that is not a module. -/
def globalVariable : Program :=
  (Program.ofSteps [.file ⟨"/p/g.ts"⟩ "var g = 1;",
    .declaration ⟨0⟩ .variableDeclaration "g = 1" "g", .symbol "g" .functionScopedVariable,
    .declare ⟨0⟩ ⟨1⟩]).toOption.getD .empty

theorem globalVariable_distinguishes : globalVariable.Distinguishes {⟨0⟩} := by
  have hparent : globalVariable.parentSymbol ⟨0⟩ = none := by decide +kernel
  constructor
  · rintro a rfl b hb
    simp [hparent] at hb
  · rintro a rfl b rfl -
    rfl

theorem globalVariable_acyclic : globalVariable.ParentsAcyclic {⟨0⟩} := by
  have hparent : globalVariable.parentSymbol ⟨0⟩ = none := by decide +kernel
  rintro a rfl hcircle
  obtain ⟨b, hb, -⟩ := Relation.TransGen.head'_iff.mp hcircle
  simp [hparent] at hb

/-- Asked for as a symbol of the library and then as a global one, it has its name both times. -/
theorem globalVariable_fresh :
    (exportPath globalVariable ⟨0⟩ (some .global) (asked globalVariable [⟨⟨0⟩, some .library⟩])).1
      = some "g" := by
  have hfacts : (firstKind globalVariable [⟨⟨0⟩, some .library⟩] (globalVariable.top ⟨0⟩)).getD
        (some .global) = some .library ∧
      globalVariable.isReached (some .library) (globalVariable.top ⟨0⟩)
        = globalVariable.isReached (some .global) (globalVariable.top ⟨0⟩) ∧
      (exportPath globalVariable ⟨0⟩ (some .global) {}).1 = some "g" := by
    decide +kernel
  obtain ⟨hfirst, hagree, hnew⟩ := hfacts
  rw [exportPath_fresh globalVariable_distinguishes globalVariable_acyclic (by simp) rfl
    (some .global) (by rw [hfirst, hagree]), hnew]

/-- **Earlier questions do matter.**  A global variable that was asked for as one has its name from
then on, also when it is asked for as a symbol of a module. -/
theorem not_forall_exportPath_fresh : ¬ ∀ (p : Program) (play : Set SymbolRef)
    (questions : List Question) (a : SymbolRef) (kind : Option LocationKind),
    p.Distinguishes play → p.ParentsAcyclic play →
    (∀ question ∈ questions, question.symbol ∈ play) → a ∈ play →
    (exportPath p a kind (asked p questions)).1 = (exportPath p a kind {}).1 := by
  intro hall
  have hsame := hall globalVariable {⟨0⟩} [⟨⟨0⟩, some .global⟩] ⟨0⟩ (some .module)
    globalVariable_distinguishes globalVariable_acyclic (by simp) rfl
  have hdiffer : (exportPath globalVariable ⟨0⟩ (some .module)
      (asked globalVariable [⟨⟨0⟩, some .global⟩])).1
        ≠ (exportPath globalVariable ⟨0⟩ (some .module) {}).1 := by
    decide +kernel
  exact hdiffer hsame

end Symbols

end SymbolGraph
