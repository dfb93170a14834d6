import Mathlib.Data.List.Induction
import SymbolGraph.Program.Build
import SymbolGraph.Symbol.Overrides

/-!
# Proofs — Symbol — which override is in effect

Overrides are asserted and released in any order, and several calls may be about the same thing.  One
place is kept for each thing that they are about.  A call takes that place, whatever was there; a
release empties it, if what is there would be released in the same words.  So the place has the
assertion of the latest call, until words like its own are released.

What is in effect is therefore always what the latest call that was not released asserts.  It goes
missing where such a call was hidden by one that came and went after it, and where an earlier call
gave out the same words.

* `Subject`, `Assertion`: what an override is about, and what it says.
* `Overrides.inEffect`: the assertion about a subject that is in effect.
  `Overrides.inEffect_assert`, `Overrides.inEffect_release`: what asserting and releasing do to it.
* `Symbols.Latest`, `Symbols.Undisturbed`: the latest call that was not released, and one after which
  nothing happened to its subject.
* `Symbols.inEffect_moved_iff`: what is in effect after any calls.
-/

namespace SymbolGraph

/-- What an override is about. -/
inductive Subject where
  | parentOf (symbol : SymbolKey)
  | exporting (parent child : SymbolKey)
  | nameOf (symbol : SymbolKey)
  deriving DecidableEq

/-- What an override says. -/
inductive Assertion where
  | parent (symbol : SymbolKey) (parent : SymbolRef)
  | exported (parent child : SymbolKey)
  | forwarded (symbol : SymbolKey) (forward : Forward)
  deriving DecidableEq

namespace Assertion

def subject : Assertion → Subject
  | .parent symbol _      => .parentOf symbol
  | .exported above below => .exporting above below
  | .forwarded symbol _   => .nameOf symbol

/-- The words that release an assertion. -/
def override : Assertion → Override
  | .parent symbol above      => .parent symbol above
  | .exported above below     => .exported above below
  | .forwarded symbol forward => .forwarded symbol forward.name

end Assertion

namespace Overrides

/-- Assert. -/
def assert (o : Overrides) : Assertion → Overrides
  | .parent symbol parent     => o.addParent symbol parent
  | .exported parent child    => o.addExport parent child
  | .forwarded symbol forward => o.addForward symbol forward

/-- Whether an assertion is in effect. -/
def inEffect (o : Overrides) : Assertion → Bool
  | .parent symbol parent     => o.parents.get? symbol = some parent
  | .exported parent child    => o.exports parent child
  | .forwarded symbol forward => o.forwards.get? symbol = some forward

@[simp] theorem inEffect_parent {o : Overrides} {symbol : SymbolKey} {parent : SymbolRef} :
    o.inEffect (.parent symbol parent) = true ↔ o.parents.get? symbol = some parent :=
  decide_eq_true_iff

@[simp] theorem inEffect_exported {o : Overrides} {parent child : SymbolKey} :
    o.inEffect (.exported parent child) = true ↔ (parent, child) ∈ o.exported :=
  decide_eq_true_iff

@[simp] theorem inEffect_forwarded {o : Overrides} {symbol : SymbolKey} {forward : Forward} :
    o.inEffect (.forwarded symbol forward) = true ↔ o.forwards.get? symbol = some forward :=
  decide_eq_true_iff

theorem addExport_eq (o : Overrides) (parent child : SymbolKey) :
    (o.addExport parent child).parents = o.parents ∧
    (o.addExport parent child).forwards = o.forwards ∧
    ∀ pair, pair ∈ (o.addExport parent child).exported ↔
      pair = (parent, child) ∨ pair ∈ o.exported := by
  by_cases hknown : o.exports parent child = true
  · rw [addExport, if_pos hknown]
    refine ⟨rfl, rfl, fun pair => ⟨.inr, ?_⟩⟩
    rintro (rfl | hexported)
    · exact of_decide_eq_true hknown
    · exact hexported
  · rw [addExport, if_neg hknown]
    refine ⟨rfl, rfl, fun pair => ?_⟩
    rw [List.mem_append, List.mem_singleton, or_comm]

/-- **Asserting takes the place of what was in effect** about the same thing. -/
theorem inEffect_assert (o : Overrides) (a b : Assertion) : (o.assert b).inEffect a = true ↔
    a = b ∨ a.subject ≠ b.subject ∧ o.inEffect a = true := by
  cases b with
  | parent symbol parent =>
      cases a with
      | parent other above =>
          by_cases hsame : other = symbol
          · subst hsame
            simpa [assert, addParent, Table.get?_insert, Assertion.subject] using eq_comm
          · simp [assert, addParent, Table.get?_insert, Assertion.subject, hsame]
      | exported above below => simp [assert, addParent, Assertion.subject]
      | forwarded other forward => simp [assert, addParent, Assertion.subject]
  | exported parent child =>
      obtain ⟨hparents, hforwards, hexported⟩ := addExport_eq o parent child
      cases a with
      | parent other above => simp [assert, Assertion.subject, hparents]
      | exported above below =>
          simp only [assert, inEffect_exported, Assertion.subject, hexported, Prod.mk.injEq,
            Assertion.exported.injEq, ne_eq, Subject.exporting.injEq]
          tauto
      | forwarded other forward => simp [assert, Assertion.subject, hforwards]
  | forwarded symbol forward =>
      cases a with
      | parent other above => simp [assert, addForward, Assertion.subject]
      | exported above below => simp [assert, addForward, Assertion.subject]
      | forwarded other known =>
          by_cases hsame : other = symbol
          · subst hsame
            simpa [assert, addForward, Table.get?_insert, Assertion.subject] using eq_comm
          · simp [assert, addForward, Table.get?_insert, Assertion.subject, hsame]

/-- **Releasing takes away what would be released in the same words**, and nothing else. -/
theorem inEffect_release (o : Overrides) (override : Override) (a : Assertion) :
    (o.release override).inEffect a = true ↔ o.inEffect a = true ∧ a.override ≠ override := by
  -- A release touches the table of its own kind alone, so only the assertions of that kind need an
  -- argument.
  cases override with
  | parent symbol parent =>
      by_cases hheld : o.parents.get? symbol = some parent
      · rw [release, if_pos hheld]
        cases a with
        | parent other above =>
            by_cases hsame : other = symbol
            · subst hsame
              simpa [Table.get?_erase, hheld, Assertion.override] using Eq.symm
            · simp [Table.get?_erase, hsame, Assertion.override]
        | exported above below => simp [Assertion.override]
        | forwarded other forward => simp [Assertion.override]
      · rw [release, if_neg hheld]
        refine ⟨fun heffect => ⟨heffect, fun hwords => hheld ?_⟩, And.left⟩
        cases a with
        | parent other above =>
            cases hwords
            exact inEffect_parent.mp heffect
        | exported above below => cases hwords
        | forwarded other forward => cases hwords
  | exported parent child =>
      cases a with
      | parent other above => simp [release, Assertion.override]
      | exported above below =>
          simp only [release, inEffect_exported, List.mem_filter, decide_eq_true_eq, ne_eq,
            Prod.mk.injEq, Assertion.override, Override.exported.injEq]
      | forwarded other forward => simp [release, Assertion.override]
  | forwarded symbol name =>
      by_cases hheld : ((o.forwards.get? symbol).any fun forward => forward.name = name) = true
      · rw [release, if_pos hheld]
        cases a with
        | parent other above => simp [Assertion.override]
        | exported above below => simp [Assertion.override]
        | forwarded other forward =>
            by_cases hsame : other = symbol
            · subst hsame
              -- Forwards are released by name alone: the words of an assertion in effect carry the
              -- name that is held.
              have hname (hforward : o.forwards.get? other = some forward) :
                  forward.name = name := by
                simpa [hforward] using hheld
              simpa [Table.get?_erase, Assertion.override] using hname
            · simp [Table.get?_erase, hsame, Assertion.override]
      · rw [release, if_neg hheld]
        refine ⟨fun heffect => ⟨heffect, fun hwords => hheld ?_⟩, And.left⟩
        cases a with
        | parent other above => cases hwords
        | exported above below => cases hwords
        | forwarded other forward =>
            cases hwords
            rw [inEffect_forwarded.mp heffect]
            simp

end Overrides

/-! ### Calls -/

namespace Symbols

/-- A call that has to do with overrides.  Those that assert one are numbered, and what they give out
can be released. -/
inductive Move where
  | addParent (symbol parent : SymbolRef)
  | addExport (parent child : SymbolRef)
  | addForward (symbol target : SymbolRef) (name : String)
  | release (issue : Nat)
  deriving DecidableEq

variable {p : Program} {moves : List Move} {move : Move} {issue n : Nat} {a b : Assertion}

/-- What a call asserts. -/
def Move.assertion? (p : Program) : Move → Option Assertion
  | .addParent symbol parent       => some (.parent (p.key symbol) parent)
  | .addExport parent child        => some (.exported (p.key parent) (p.key child))
  | .addForward symbol target name => some (.forwarded (p.key symbol) { target, name })
  | .release _                     => none

/-- Make a call, after those that gave out what was `issued`. -/
def Move.make (p : Program) (issued : List Override) : Move → StateM Symbols (List Override)
  | .addParent symbol parent       => do return issued ++ [← Symbols.addParent p symbol parent]
  | .addExport parent child        => do return issued ++ [← Symbols.addExport p parent child]
  | .addForward symbol target name => do return issued ++ [← Symbols.addForward p symbol target name]
  | .release issue                 =>
      match issued[issue]? with
      | none          => return issued
      | some override => do
          Symbols.release override
          return issued

/-- What was given out by calls, and the tables after them, from new ones. -/
def moved (p : Program) (moves : List Move) : List Override × Symbols :=
  moves.foldl (fun r move => move.make p r.1 r.2) ([], {})

/-- What was asserted by calls, in order. -/
def assertions (p : Program) (moves : List Move) : List Assertion :=
  moves.filterMap (Move.assertion? p)

/-- Calls in which everything is released at most once, and after it was given out. -/
inductive Disciplined (p : Program) : List Move → Prop
  | start : Disciplined p []
  | assert {moves : List Move} {move : Move} {a : Assertion} :
      Disciplined p moves → move.assertion? p = some a → Disciplined p (moves ++ [move])
  | release {moves : List Move} {issue : Nat} :
      Disciplined p moves → issue < (assertions p moves).length → .release issue ∉ moves →
      Disciplined p (moves ++ [.release issue])

/-- A call that was not released. -/
def Outstanding (p : Program) (moves : List Move) (n : Nat) (a : Assertion) : Prop :=
  (assertions p moves)[n]? = some a ∧ .release n ∉ moves

/-- The latest call about its subject that was not released. -/
def Latest (p : Program) (moves : List Move) (n : Nat) (a : Assertion) : Prop :=
  Outstanding p moves n a ∧
    ∀ n' b, Outstanding p moves n' b → b.subject = a.subject → n' ≤ n

/-- Since a call there was no other one about its subject, and nothing was released in the words that
would release it. -/
structure Undisturbed (p : Program) (moves : List Move) (n : Nat) (a : Assertion) : Prop where
  last : ∀ n' b, (assertions p moves)[n']? = some b → b.subject = a.subject → n' ≤ n
  kept : ∀ before issue after, moves = before ++ .release issue :: after →
    n < (assertions p before).length →
    ∀ b, (assertions p before)[issue]? = some b → b.override ≠ a.override

/-! ### One call -/

theorem Move.make_of_assertion {issued : List Override} {s : Symbols}
    (h : move.assertion? p = some a) :
    move.make p issued s = (issued ++ [a.override], s.override fun o => o.assert a) := by
  cases move <;> cases h <;> rfl

theorem moved_concat (p : Program) (moves : List Move) (move : Move) :
    moved p (moves ++ [move]) = move.make p (moved p moves).1 (moved p moves).2 := by
  simp [moved]

theorem assertions_concat (h : move.assertion? p = some a) :
    assertions p (moves ++ [move]) = assertions p moves ++ [a] := by
  simp [assertions, h]

theorem assertions_concat_release :
    assertions p (moves ++ [.release issue]) = assertions p moves := by
  simp [assertions, Move.assertion?]

theorem moved_issued (p : Program) (moves : List Move) :
    (moved p moves).1 = (assertions p moves).map Assertion.override := by
  induction moves using List.reverseRecOn with
  | nil => rfl
  | append_singleton moves move ih =>
      rw [moved_concat]
      cases hassertion : move.assertion? p with
      | some a =>
          rw [Move.make_of_assertion hassertion, assertions_concat hassertion, ih, List.map_append]
          rfl
      | none =>
          cases move with
          | release issue =>
              rw [assertions_concat_release, ← ih, Move.make]
              cases (moved p moves).1[issue]? <;> rfl
          | _ => cases hassertion

theorem inEffect_moved_assert (h : move.assertion? p = some b) :
    (moved p (moves ++ [move])).2.overrides.inEffect a = true ↔
      a = b ∨ a.subject ≠ b.subject ∧ (moved p moves).2.overrides.inEffect a = true := by
  rw [moved_concat, Move.make_of_assertion h]
  exact Overrides.inEffect_assert _ a b

theorem inEffect_moved_release :
    (moved p (moves ++ [.release issue])).2.overrides.inEffect a = true ↔
      (moved p moves).2.overrides.inEffect a = true ∧
        ∀ b, (assertions p moves)[issue]? = some b → b.override ≠ a.override := by
  rw [moved_concat, Move.make, moved_issued, List.getElem?_map]
  cases (assertions p moves)[issue]? with
  | none => exact ⟨fun heffect => ⟨heffect, nofun⟩, And.left⟩
  | some b =>
      refine (Overrides.inEffect_release _ b.override a).trans (and_congr_right fun _ => ?_)
      simp [eq_comm]

/-! ### Call after call -/

/-- Where a call may stand in a list with one more call at its end. -/
theorem split_concat {before after : List Move} {here : Move}
    (h : moves ++ [move] = before ++ here :: after) :
    (before = moves ∧ here = move) ∨ ∃ rest, moves = before ++ here :: rest := by
  rcases List.eq_nil_or_concat after with rfl | ⟨rest, last, rfl⟩
  · obtain ⟨hmoves, hmove⟩ := List.append_inj' h rfl
    exact .inl ⟨hmoves.symm, (List.singleton_inj.mp hmove).symm⟩
  · rw [List.concat_eq_append, ← List.cons_append, ← List.append_assoc] at h
    exact .inr ⟨rest, (List.append_inj' h rfl).1⟩

theorem assertions_append (p : Program) (before after : List Move) :
    assertions p (before ++ after) = assertions p before ++ assertions p after :=
  List.filterMap_append

/-- Calls keep their numbers. -/
theorem getElem?_assertions_append {before : List Move} (after : List Move)
    (hn : n < (assertions p before).length) :
    (assertions p (before ++ after))[n]? = (assertions p before)[n]? := by
  rw [assertions_append, List.getElem?_append_left hn]

/-- A call is undisturbed when it is made. -/
theorem undisturbed_new (h : move.assertion? p = some a) :
    Undisturbed p (moves ++ [move]) (assertions p moves).length a where
  last n' b hb _ := by
    rw [assertions_concat h] at hb
    have hlt := (List.getElem?_eq_some_iff.mp hb).1
    rw [List.length_append, List.length_singleton] at hlt
    omega
  kept before issue after hsplit hn b hb := by
    rcases split_concat hsplit with ⟨-, rfl⟩ | ⟨rest, rfl⟩
    · cases h
    · -- No release comes after the last call.
      rw [assertions_append, List.length_append] at hn
      omega

theorem undisturbed_assert (h : move.assertion? p = some b) (hn : n < (assertions p moves).length) :
    Undisturbed p (moves ++ [move]) n a ↔ b.subject ≠ a.subject ∧ Undisturbed p moves n a := by
  constructor
  · intro hundisturbed
    refine ⟨fun hsubject => ?_, ⟨fun n' c hc hsubject => ?_, fun before issue after hsplit => ?_⟩⟩
    · have hlast := hundisturbed.last (assertions p moves).length b
        (by rw [assertions_concat h]; exact List.getElem?_concat_length) hsubject
      omega
    · refine hundisturbed.last n' c ?_ hsubject
      rw [getElem?_assertions_append _ (List.getElem?_eq_some_iff.mp hc).1]
      exact hc
    · exact hundisturbed.kept before issue (after ++ [move]) (by simp [hsplit])
  · rintro ⟨hsubject, hundisturbed⟩
    refine ⟨fun n' c hc hsame => ?_, fun before issue after hsplit hbefore => ?_⟩
    · rw [assertions_concat h, List.getElem?_append] at hc
      split at hc
      · exact hundisturbed.last n' c hc hsame
      · obtain rfl : c = b := by simpa using List.mem_of_getElem? hc
        exact absurd hsame hsubject
    · rcases split_concat hsplit with ⟨-, rfl⟩ | ⟨rest, hrest⟩
      · cases h
      · exact hundisturbed.kept before issue rest hrest hbefore

theorem undisturbed_release (hn : n < (assertions p moves).length) :
    Undisturbed p (moves ++ [.release issue]) n a ↔ Undisturbed p moves n a ∧
      ∀ b, (assertions p moves)[issue]? = some b → b.override ≠ a.override := by
  constructor
  · intro hundisturbed
    refine ⟨⟨?_, fun before issue' after hsplit => ?_⟩, ?_⟩
    · rw [← assertions_concat_release]
      exact hundisturbed.last
    · exact hundisturbed.kept before issue' (after ++ [.release issue]) (by simp [hsplit])
    · exact hundisturbed.kept moves issue [] rfl hn
  · rintro ⟨hundisturbed, hwords⟩
    refine ⟨?_, fun before issue' after hsplit hbefore => ?_⟩
    · rw [assertions_concat_release]
      exact hundisturbed.last
    · rcases split_concat hsplit with ⟨rfl, hrelease⟩ | ⟨rest, hrest⟩
      · cases hrelease
        exact hwords
      · exact hundisturbed.kept before issue' rest hrest hbefore

/-- **What is in effect** is what an undisturbed call asserts. -/
theorem inEffect_moved (p : Program) (moves : List Move) (a : Assertion) :
    (moved p moves).2.overrides.inEffect a = true ↔
      ∃ n, (assertions p moves)[n]? = some a ∧ Undisturbed p moves n a := by
  induction moves using List.reverseRecOn with
  | nil =>
      constructor
      · intro hnothing
        cases a <;> cases hnothing
      · rintro ⟨n, hn, -⟩
        cases hn
  | append_singleton moves move ih =>
      -- The last move asserts `b`, disturbing what has the same subject, or releases; a release
      -- keeps what was asserted in other words.
      cases hassertion : move.assertion? p with
      | some b =>
          rw [inEffect_moved_assert hassertion, ih]
          constructor
          · rintro (rfl | ⟨hsubject, n, hn, hundisturbed⟩)
            · refine ⟨(assertions p moves).length, ?_, undisturbed_new hassertion⟩
              rw [assertions_concat hassertion]
              exact List.getElem?_concat_length
            · have hlt := (List.getElem?_eq_some_iff.mp hn).1
              refine ⟨n, ?_, (undisturbed_assert hassertion hlt).mpr ⟨hsubject.symm, hundisturbed⟩⟩
              rw [getElem?_assertions_append _ hlt]
              exact hn
          · rintro ⟨n, hn, hundisturbed⟩
            by_cases hlt : n < (assertions p moves).length
            · obtain ⟨hsubject, hbefore⟩ := (undisturbed_assert hassertion hlt).mp hundisturbed
              rw [getElem?_assertions_append _ hlt] at hn
              exact .inr ⟨hsubject.symm, n, hn, hbefore⟩
            · rw [assertions_concat hassertion, List.getElem?_append_right (Nat.not_lt.mp hlt)] at hn
              exact .inl (List.mem_singleton.mp (List.mem_of_getElem? hn))
      | none =>
          cases move with
          | release issue =>
              rw [inEffect_moved_release, ih, assertions_concat_release]
              constructor
              · rintro ⟨⟨n, hn, hundisturbed⟩, hwords⟩
                have hlt := (List.getElem?_eq_some_iff.mp hn).1
                exact ⟨n, hn, (undisturbed_release hlt).mpr ⟨hundisturbed, hwords⟩⟩
              · rintro ⟨n, hn, hundisturbed⟩
                have hlt := (List.getElem?_eq_some_iff.mp hn).1
                obtain ⟨hbefore, hwords⟩ := (undisturbed_release hlt).mp hundisturbed
                exact ⟨⟨n, hn, hbefore⟩, hwords⟩
          | _ => cases hassertion

theorem Disciplined.issued (h : Disciplined p moves) {before after : List Move}
    (hsplit : moves = before ++ .release issue :: after) : issue < (assertions p before).length := by
  induction h generalizing after with
  | start => simp at hsplit
  | assert _ hassertion ih =>
      rcases split_concat hsplit with ⟨-, rfl⟩ | ⟨rest, hrest⟩
      · cases hassertion
      · exact ih hrest
  | release _ hissued _ ih =>
      rcases split_concat hsplit with ⟨rfl, hrelease⟩ | ⟨rest, hrest⟩
      · cases hrelease
        exact hissued
      · exact ih hrest

/-- An undisturbed call was not released: that would be in its own words. -/
theorem Undisturbed.not_released (h : Undisturbed p moves n a) (hmoves : Disciplined p moves)
    (hn : (assertions p moves)[n]? = some a) : .release n ∉ moves := by
  intro hmem
  obtain ⟨before, after, hsplit⟩ := List.append_of_mem hmem
  have hissued := hmoves.issued hsplit
  rw [hsplit, getElem?_assertions_append _ hissued] at hn
  exact h.kept before n after hsplit hissued a hn rfl

/-- **What is in effect was asserted by the latest call that was not released.**  After any calls in
which everything is released at most once, an assertion is in effect if and only if it is that of the
latest call about its subject that was not released, there was no other call about the subject after
that one, and nothing was released since then in the same words. -/
theorem inEffect_moved_iff (hmoves : Disciplined p moves) (a : Assertion) :
    (moved p moves).2.overrides.inEffect a = true ↔
      ∃ n, Latest p moves n a ∧ Undisturbed p moves n a := by
  rw [inEffect_moved]
  constructor
  · rintro ⟨n, hn, hundisturbed⟩
    refine ⟨n, ⟨⟨hn, hundisturbed.not_released hmoves hn⟩, ?_⟩, hundisturbed⟩
    exact fun n' b hb hsubject => hundisturbed.last n' b hb.1 hsubject
  · rintro ⟨n, hlatest, hundisturbed⟩
    exact ⟨n, hlatest.1.1, hundisturbed⟩

/-- Two type aliases and a type literal. -/
def twoAliases : Program :=
  (Program.ofSteps [.file ⟨"/p/a.ts"⟩ "type T = {}; type U = {};", .module ⟨0⟩,
    .node ⟨0⟩ .typeAliasDeclaration 0 12, .node ⟨0⟩ .typeAliasDeclaration 13 25,
    .node ⟨2⟩ .typeLiteral 22 24,
    .symbol "T" .typeAlias, .declare ⟨1⟩ ⟨1⟩, .symbol "U" .typeAlias, .declare ⟨2⟩ ⟨2⟩,
    .symbol "__type" .typeLiteral, .declare ⟨3⟩ ⟨3⟩]).toOption.getD .empty

/-- The literal is placed below one alias and then below the other, and the first of these calls is
released: the second one is still in effect. -/
theorem inEffect_second_parent :
    (moved twoAliases [.addParent ⟨3⟩ ⟨1⟩, .addParent ⟨3⟩ ⟨2⟩, .release 0]).2.overrides.inEffect
      (.parent (twoAliases.key ⟨3⟩) ⟨2⟩) = true ∧
    ∃ n, Latest twoAliases [.addParent ⟨3⟩ ⟨1⟩, .addParent ⟨3⟩ ⟨2⟩, .release 0] n
        (.parent (twoAliases.key ⟨3⟩) ⟨2⟩) ∧
      Undisturbed twoAliases [.addParent ⟨3⟩ ⟨1⟩, .addParent ⟨3⟩ ⟨2⟩, .release 0] n
        (.parent (twoAliases.key ⟨3⟩) ⟨2⟩) := by
  have hmoves : Disciplined twoAliases [.addParent ⟨3⟩ ⟨1⟩, .addParent ⟨3⟩ ⟨2⟩, .release 0] := by
    have hfirst : Disciplined twoAliases ([] ++ [.addParent ⟨3⟩ ⟨1⟩]) := .assert .start rfl
    have hsecond : Disciplined twoAliases ([.addParent ⟨3⟩ ⟨1⟩] ++ [.addParent ⟨3⟩ ⟨2⟩]) :=
      .assert hfirst rfl
    exact .release hsecond (by simp [assertions, Move.assertion?]) (by simp)
  have heffect : (moved twoAliases [.addParent ⟨3⟩ ⟨1⟩, .addParent ⟨3⟩ ⟨2⟩,
      .release 0]).2.overrides.inEffect (.parent (twoAliases.key ⟨3⟩) ⟨2⟩) = true := by
    decide +kernel
  exact ⟨heffect, (inEffect_moved_iff hmoves _).mp heffect⟩

/-- The literal goes by one name beside one alias and then beside the other, and the first of these
calls is released: the second one is gone too. -/
theorem not_forall_latest_inEffect : ¬ ∀ (p : Program) (moves : List Move), Disciplined p moves →
    ∀ a, (moved p moves).2.overrides.inEffect a = true ↔ ∃ n, Latest p moves n a := by
  intro hall
  have hmoves : Disciplined twoAliases
      [.addForward ⟨3⟩ ⟨1⟩ "N", .addForward ⟨3⟩ ⟨2⟩ "N", .release 0] := by
    have hfirst : Disciplined twoAliases ([] ++ [.addForward ⟨3⟩ ⟨1⟩ "N"]) := .assert .start rfl
    have hsecond : Disciplined twoAliases
        ([.addForward ⟨3⟩ ⟨1⟩ "N"] ++ [.addForward ⟨3⟩ ⟨2⟩ "N"]) := .assert hfirst rfl
    exact .release hsecond (by simp [assertions, Move.assertion?]) (by simp)
  have hgone : (moved twoAliases [.addForward ⟨3⟩ ⟨1⟩ "N", .addForward ⟨3⟩ ⟨2⟩ "N",
      .release 0]).2.overrides.inEffect (.forwarded (twoAliases.key ⟨3⟩) ⟨⟨2⟩, "N"⟩) = false := by
    decide +kernel
  have heffect := (hall twoAliases _ hmoves (.forwarded (twoAliases.key ⟨3⟩) ⟨⟨2⟩, "N"⟩)).mpr
    ⟨1, ⟨rfl, by decide⟩, fun n b hb _ => ?_⟩
  · rw [hgone] at heffect
    cases heffect
  · have hlt := (List.getElem?_eq_some_iff.mp hb.1).1
    exact Nat.le_of_lt_succ hlt

end Symbols

end SymbolGraph
