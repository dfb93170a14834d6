import SymbolGraph.Proofs.Run.Reasons

/-!
# Proofs — Run — uses inside and outside a scope

A local symbol is closed when the walk leaves the innermost scope around its only declaration.  As
long as an identifier is below that scope, the walk comes to it before it leaves the scope, whatever
else it has left by then.  A variable that is declared in a block and hoisted to the function around
it may be used after the block, and then it is too late.

* `Run.scoped_never_cleared`: below the scopes of all that is needed, no visit comes too late.
* `Program.hoistedTo`: the function, or else the file, to which a declaration is hoisted.
* `Run.not_forall_hoisted_never_cleared`: to be below that is not enough.
-/

namespace SymbolGraph

/-- The innermost function around a declaration or, failing one, the source file. -/
def Program.hoistedTo (p : Program) (declaration : NodeId) : Option NodeId :=
  ((p.ancestors declaration).find? fun node =>
      (p.kind node).isFunctionOrBlock ∧ p.kind node ≠ .block).or
    ((p.ancestors declaration).find? fun node => p.kind node = .sourceFile)

namespace Run

open SymbolGraph.Action SymbolGraph.Session

variable {w : Setting}

/-- **Below its scope a symbol can be used.**  If an identifier is below the scope of the symbol that
it denotes and of all that the symbol needs, as far as they have one, its visit never comes too late
for any of them, over any sink. -/
theorem scoped_never_cleared (sink : Sink)
    (hbuilt : ∃ steps, Program.ofSteps steps = .ok w.program) {x : NodeId} {symbol : SymbolRef}
    (hsymbol : w.program.symbolAt x = some symbol)
    (hscopes : ∀ y, w.program.Reaches ⟨symbol, some x⟩ y → ∀ other,
      w.program.key other = w.program.key y.symbol → ∀ scope,
        scopeOf w.program other (w.program.declarations other) = some scope →
        w.program.Under scope x) :
    ∀ s, (x, s) ∈ visits w sink → ∀ key t, visitIdentifier w x s ≠ .error (.recordCleared key) t := by
  intro s hvisit key t hfails
  obtain ⟨left, hcalm, haway⟩ := visits_calm (x, s) hvisit
  obtain ⟨-, symbol', hsymbol', hexplains⟩ :=
    (visitIdentifier_explained hcalm.sturdy x).of_error hfails
  cases hsymbol.symm.trans hsymbol'
  cases hexplains with
  | ordinary hfault => exact hfault
  | cleared hreach hkey =>
      -- The key was cleared when the walk left the scope of a symbol with that key.
      obtain ⟨other, scope, hother, hscope, hleft⟩ := hcalm.cleared _ hkey
      exact haway (Program.branching_of_built hbuilt) scope hleft
        (hscopes _ hreach other hother scope hscope)

/-! ### A variable in a block of a function -/

/-- The steps for a function with a variable, before it is declared. -/
def hoisting (body : String) : List Program.Step :=
  [.file ⟨"/p/a.ts"⟩ ("function f() " ++ body),
   .nodeAt ⟨0⟩ .functionDeclaration ("function f() " ++ body) 0, .nodeAt ⟨1⟩ .block body 0,
   .symbol "a" .functionScopedVariable]

/-- The steps for a variable that is declared in a function, and used in a block. -/
def inBlockSteps : List Program.Step := hoisting "\x7b var a = 1; \x7b a; \x7d \x7d" ++
  [.declaration ⟨2⟩ .variableDeclaration "a = 1" "a", .declare ⟨0⟩ ⟨3⟩,
   .nodeAt ⟨2⟩ .block "\x7b a; \x7d" 0, .identifier ⟨5⟩ "a" 0 ⟨0⟩]

def usesInBlock : Setting := plain inBlockSteps

/-- The steps for a variable that is declared in a block, and used after it. -/
def afterBlockSteps : List Program.Step := hoisting "\x7b \x7b var a = 1; \x7d a; \x7d" ++
  [.nodeAt ⟨2⟩ .block "\x7b var a = 1; \x7d" 0, .declaration ⟨3⟩ .variableDeclaration "a = 1" "a",
   .declare ⟨0⟩ ⟨4⟩, .identifier ⟨2⟩ "a" 2 ⟨0⟩]

def usesAfterBlock : Setting := plain afterBlockSteps

/-- The use in the block is visited, and does not come too late. -/
theorem usesInBlock_never_cleared : ((visits usesInBlock .inMemory).any fun visit =>
      visit.1 = ⟨6⟩) = true ∧
    ∀ s, (⟨6⟩, s) ∈ visits usesInBlock .inMemory →
      ∀ key t, visitIdentifier usesInBlock ⟨6⟩ s ≠ .error (.recordCleared key) t := by
  have hvisited : ((visits usesInBlock .inMemory).any fun visit => visit.1 = ⟨6⟩) = true := by
    decide +kernel
  have hfacts : (Program.ofSteps inBlockSteps).isOk = true ∧
      usesInBlock.program.symbols.size = 1 ∧ usesInBlock.program.symbolAt ⟨6⟩ = some ⟨0⟩ ∧
      scopeOf usesInBlock.program ⟨0⟩ (usesInBlock.program.declarations ⟨0⟩) = some ⟨2⟩ ∧
      ⟨5⟩ ∈ usesInBlock.program.children ⟨2⟩ ∧ ⟨6⟩ ∈ usesInBlock.program.children ⟨5⟩ := by
    decide +kernel
  obtain ⟨hok, hsize, hsymbol, hscope, hblock, huse⟩ := hfacts
  refine ⟨hvisited, scoped_never_cleared .inMemory (plain_built hok) hsymbol
    fun y _ other _ scope hother => ?_⟩
  -- There is only one symbol.
  have hlt : other.index < usesInBlock.program.symbols.size := by
    unfold scopeOf at hother
    split at hother
    · rename_i declaration hdeclared
      exact Program.index_lt_of_declares (hdeclared ▸ List.mem_singleton_self declaration)
    · cases hother
  obtain rfl : other = ⟨0⟩ := congrArg SymbolRef.mk (by omega)
  cases hscope.symm.trans hother
  exact .head hblock (.single huse)

/-- **A use inside the function is not always in time.**  When the walk has left the block in which a
variable is declared, a use further down in the same function comes too late. -/
theorem not_forall_hoisted_never_cleared : ¬ ∀ (w : Setting) (symbol : SymbolRef)
    (declaration scope : NodeId), (∃ steps, Program.ofSteps steps = .ok w.program) →
    (∀ a b : SymbolRef, a.index < w.program.symbols.size → b.index < w.program.symbols.size →
      w.program.key a = w.program.key b → a = b) →
    (w.program.symbolFlags symbol).has .functionScopedVariable →
    w.program.declarations symbol = [declaration] →
    w.program.hoistedTo declaration = some scope →
    (∀ x, w.program.kind x = .identifier → w.program.symbolAt x = some symbol →
      w.program.Under scope x) →
    ∀ x s, (x, s) ∈ visits w .inMemory → w.program.symbolAt x = some symbol →
      ∀ key t, visitIdentifier w x s ≠ .error (.recordCleared key) t := by
  intro hall
  have hfacts : (Program.ofSteps afterBlockSteps).isOk = true ∧
      usesAfterBlock.program.symbols.size = 1 ∧
      (usesAfterBlock.program.symbolFlags ⟨0⟩).has .functionScopedVariable ∧
      usesAfterBlock.program.declarations ⟨0⟩ = [⟨4⟩] ∧
      usesAfterBlock.program.hoistedTo ⟨4⟩ = some ⟨1⟩ ∧
      usesAfterBlock.program.symbolAt ⟨6⟩ = some ⟨0⟩ := by
    decide +kernel
  have htree : (∀ i < usesAfterBlock.program.nodes.size,
        usesAfterBlock.program.kind ⟨i⟩ = .identifier → i = 5 ∨ i = 6) ∧
      ⟨2⟩ ∈ usesAfterBlock.program.children ⟨1⟩ ∧ ⟨3⟩ ∈ usesAfterBlock.program.children ⟨2⟩ ∧
      ⟨6⟩ ∈ usesAfterBlock.program.children ⟨2⟩ ∧ ⟨4⟩ ∈ usesAfterBlock.program.children ⟨3⟩ ∧
      ⟨5⟩ ∈ usesAfterBlock.program.children ⟨4⟩ := by
    decide +kernel
  have hlate : (visits usesAfterBlock .inMemory).any (fun visit => visit.1 = ⟨6⟩ &&
      match visitIdentifier usesAfterBlock ⟨6⟩ visit.2 with
      | .error (.recordCleared _) _ => true
      | _ => false) = true := by
    decide +kernel
  obtain ⟨hok, hsize, hflag, hdeclared, hhoisted, hsymbol⟩ := hfacts
  obtain ⟨hidentifiers, hbody, hblock, huse, hvariable, hname⟩ := htree
  obtain ⟨⟨x, s⟩, hvisit, hlate⟩ := List.any_eq_true.mp hlate
  rw [Bool.and_eq_true] at hlate
  obtain ⟨hx, hfails⟩ := hlate
  obtain rfl : x = ⟨6⟩ := of_decide_eq_true hx
  have hnever := hall usesAfterBlock ⟨0⟩ ⟨4⟩ ⟨1⟩ (plain_built hok)
    (fun a b ha hb _ => congrArg SymbolRef.mk (by omega)) hflag hdeclared hhoisted
    (fun y hkind _ => ?_) ⟨6⟩ s hvisit hsymbol
  · split at hfails
    · rename_i key t hrun
      exact hnever key t hrun
    · cases hfails
  · have hlt : y.index < usesAfterBlock.program.nodes.size := Nat.lt_of_not_le fun hge => by
      simp [Program.kind, Program.node?, hge] at hkind
    obtain ⟨i⟩ := y
    rcases hidentifiers i hlt hkind with rfl | rfl
    · exact .head hbody (.head hblock (.head hvariable (.single hname)))
    · exact .head hbody (.single huse)

end Run

end SymbolGraph
