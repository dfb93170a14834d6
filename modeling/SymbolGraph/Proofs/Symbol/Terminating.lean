import Mathlib.Logic.Function.Iterate
import SymbolGraph.Proofs.Symbol.Needs

/-!
# Proofs — Symbol — questions that end by themselves

The questions about symbols are recursions of a bounded depth, and what is cut off at the bound is
answered by a default.  That does not happen: whatever would be answered further down, the answer is
the same.  A chain of parents and forwards without a circle comes to its end before the bound; and in
the search for members each level takes up another key, also where the heritage runs in circles.

It would not do to show that more depth changes nothing: where a chain runs in a circle, the default
comes through at every depth.

* `EndsWithin`: a recursion ends by itself within a depth.
* `Overrides.ends_of_no_circle`: a chain without a circle is short, also where keys are shared.
* `Symbols.exportPath_ends`, `Symbols.findBaseMembers_ends`: so both questions end.
-/

namespace SymbolGraph

/-! ### Recursions -/

section EndsWithin

variable {α σ ρ : Type} {step : (α → σ → ρ) → α → σ → ρ} {depth : Nat} {a : α} {s : σ}

/-- A recursion ends by itself within a depth: whatever is answered further down, the answer is the
same. -/
def EndsWithin (step : (α → σ → ρ) → α → σ → ρ) (depth : Nat) (a : α) (s : σ) : Prop :=
  ∀ deeper deeper' : α → σ → ρ, step^[depth] deeper a s = step^[depth] deeper' a s

/-- By what is ready for a depth.  Nothing is ready for no depth at all, and what is ready for one
level more asks only what is ready for the levels below, whose answers are good. -/
theorem endsWithin_of (ready : Nat → α → σ → Prop) (good : α → σ → ρ → Prop)
    (hzero : ∀ a s, ¬ ready 0 a s)
    (hstep : ∀ depth f f', (∀ a s, ready depth a s → f a s = f' a s ∧ good a s (f a s)) →
      ∀ a s, ready (depth + 1) a s → step f a s = step f' a s ∧ good a s (step f a s))
    (h : ready depth a s) : EndsWithin step depth a s := by
  intro deeper deeper'
  have hboth : ∀ depth a s, ready depth a s →
      step^[depth] deeper a s = step^[depth] deeper' a s ∧ good a s (step^[depth] deeper a s) := by
    intro depth
    induction depth with
    | zero => exact fun a s h => absurd h (hzero a s)
    | succ depth ih =>
        intro a s h
        rw [Function.iterate_succ_apply', Function.iterate_succ_apply']
        exact hstep depth _ _ ih a s h
  exact (hboth depth a s h).1

/-- What ends by itself within a depth does the same at any depth from there on. -/
theorem EndsWithin.iterate_eq (h : EndsWithin step depth a s) {more more' : Nat}
    (hmore : depth ≤ more) (hmore' : depth ≤ more') (deeper deeper' : α → σ → ρ) :
    step^[more] deeper a s = step^[more'] deeper' a s := by
  obtain ⟨k, rfl⟩ := Nat.exists_eq_add_of_le hmore
  obtain ⟨k', rfl⟩ := Nat.exists_eq_add_of_le hmore'
  rw [Function.iterate_add_apply, Function.iterate_add_apply]
  exact h _ _

end EndsWithin

/-! ### Chains -/

namespace Overrides

variable {p : Program} {kind : Option LocationKind} {o : Overrides} {a b : SymbolRef}

/-- Symbols that do not exist are all followed by the same one. -/
theorem next?_of_missing (ha : p.symbols.size ≤ a.index) (hb : p.symbols.size ≤ b.index) :
    o.next? p kind a = o.next? p kind b := by
  have hnone {c : SymbolRef} (hc : p.symbols.size ≤ c.index) : p.symbol? c = none := by
    simp [Program.symbol?, hc]
  simp only [next?, parentOf, Program.key_of_missing ha, Program.key_of_missing hb,
    Program.isSourceFileSymbol, Program.isExportedBare, Program.isNested, Program.declarations,
    Program.parentSymbol, Program.symbolFlags, hnone ha, hnone hb]

/-- By the symbols that were passed on the way, at most one of which does not exist: none of them
comes again, and there are only so many. -/
theorem ends_of_passed_no_circle (hacyclic : o.Acyclic p kind Set.univ) (fuel : Nat) (a : SymbolRef)
    (passed : List SymbolRef) (hnodup : (passed.map fun b => min b.index p.symbols.size).Nodup)
    (hpassed : ∀ b ∈ passed, Relation.TransGen (fun a b => o.next? p kind a = some b) b a)
    (hfuel : p.symbols.size + 2 ≤ passed.length + fuel) : o.Ends p kind fuel a := by
  induction fuel generalizing a passed with
  | zero =>
      have hsub : (passed.map fun b => min b.index p.symbols.size)
          ⊆ List.range (p.symbols.size + 1) := by
        intro n hn
        obtain ⟨b, -, rfl⟩ := List.mem_map.mp hn
        exact List.mem_range.mpr (by omega)
      have hlength := (List.subperm_of_subset hnodup hsub).length_le
      rw [List.length_map, List.length_range] at hlength
      omega
  | succ fuel ih =>
      intro b hnext
      have hnew : min a.index p.symbols.size ∉ passed.map fun b => min b.index p.symbols.size := by
        intro hmem
        obtain ⟨c, hc, heq⟩ := List.mem_map.mp hmem
        have hreach := hpassed c hc
        by_cases hlt : a.index < p.symbols.size
        · have hca : c = a := congrArg SymbolRef.mk (by omega)
          exact hacyclic a trivial (hca ▸ hreach)
        · -- What follows both of them is on its way back.
          have hsame : o.next? p kind c = some b :=
            (next?_of_missing (by omega) (by omega)).trans hnext
          obtain ⟨d, hfirst, hrest⟩ := Relation.TransGen.head'_iff.mp hreach
          cases hsame.symm.trans hfirst
          exact hacyclic a trivial (.head' hnext hrest)
      refine ih b (a :: passed) (List.nodup_cons.mpr ⟨hnew, hnodup⟩) ?_
        (by simp only [List.length_cons]; omega)
      intro c hc
      rcases List.mem_cons.mp hc with rfl | hc
      · exact .single hnext
      · exact (hpassed c hc).tail hnext

/-- **A chain without a circle is short**, also where symbols have keys in common. -/
theorem ends_of_no_circle (hacyclic : o.Acyclic p kind Set.univ) (a : SymbolRef) :
    o.Ends p kind (p.symbols.size + 3) a :=
  ends_of_passed_no_circle hacyclic _ a [] .nil nofun (by simp)

end Overrides

/-! ### Export paths -/

namespace Symbols

variable {p : Program} {kind : Option LocationKind} {name : String} {s t : Symbols} {a : SymbolRef}

theorem exportPathWithin_eq_iterate (fuel : Nat) : exportPathWithin p kind fuel
    = (seekPath p kind)^[fuel] fun _ => return { path := none, consulted := true } := by
  induction fuel with
  | zero => rfl
  | succ fuel ih =>
      rw [Function.iterate_succ_apply', ← ih]
      rfl

/-- A path is derived from that of the symbol that comes next. -/
theorem deriveExportPath_congr {ask ask' : SymbolRef → StateM Symbols ExportAnswer}
    (h : ∀ b, s.overrides.next? p kind a = some b → ask b s = ask' b s) :
    deriveExportPath p kind ask a s = deriveExportPath p kind ask' a s := by
  unfold deriveExportPath
  by_cases hfile : p.isSourceFileSymbol a = true
  · rw [if_pos hfile, if_pos hfile]
  · rw [if_neg hfile, if_neg hfile]
    replace hfile : p.isSourceFileSymbol a = false := by simpa using hfile
    simp only [get, getThe, MonadStateOf.get, bind, StateT.bind, StateT.get, pure]
    cases hparent : s.overrides.parentOf p a with
    | some parent =>
        have hask := h parent (Overrides.next?_of_parent hfile hparent)
        rw [Overrides.parentOf] at hparent
        simp only [hparent, StateT.bind, hask]
    | none =>
        by_cases hbare : p.isExportedBare kind a = true
        · rw [Overrides.parentOf] at hparent
          simp only [hparent, hbare, if_true]
        · replace hbare : p.isExportedBare kind a = false := by simpa using hbare
          cases hforward : s.overrides.forwards.get? (p.key a) with
          | none =>
              rw [Overrides.parentOf] at hparent
              simp only [hparent, hbare]
          | some forward =>
              have hask := h forward.target (Overrides.next?_of_forward hfile hparent hbare hforward)
              rw [Overrides.parentOf] at hparent
              simp only [hparent, hbare, Bool.false_eq_true, if_false, StateT.bind, hask]

/-- **The search for an export path ends** where the chain that it follows has no circle. -/
theorem exportPath_ends (hacyclic : s.overrides.Acyclic p kind Set.univ) :
    EndsWithin (seekPath p kind) (p.symbols.size + 3) a s := by
  refine endsWithin_of (fun depth a t => t.overrides.Ends p kind depth a) (fun _ _ _ => True)
    (fun _ _ h => h) (fun depth f f' ih a t ht => ⟨?_, trivial⟩)
    (Overrides.ends_of_no_circle hacyclic a)
  have hderive : deriveExportPath p kind f a t = deriveExportPath p kind f' a t :=
    deriveExportPath_congr fun b hb => (ih b t (ht b hb)).1
  simp only [seekPath, remember, get, getThe, MonadStateOf.get, bind, StateT.bind, StateT.get, pure]
  cases t.exportPaths.get? (p.key a) with
  | some path => rfl
  | none => simp only [StateT.bind, hderive]

/-! ### Members of supertypes -/

theorem findBaseMembersWithin_eq_iterate (fuel : Nat) : findBaseMembersWithin p name fuel
    = (seekMembers p name)^[fuel] fun _ => return none := by
  induction fuel with
  | zero => rfl
  | succ fuel ih =>
      rw [Function.iterate_succ_apply', ← ih]
      rfl

/-- How many keys were not taken up for a name. -/
def untaken (p : Program) (name : String) (s : Symbols) : Nat :=
  (p.keys.filter fun key => s.baseMembers.get? (key, name) = none).card

/-- What was taken up stays so. -/
def Takes (name : String) (s t : Symbols) : Prop :=
  ∀ key, s.baseMembers.get? (key, name) ≠ none → t.baseMembers.get? (key, name) ≠ none

theorem Takes.untaken_le (h : Takes name s t) : t.untaken p name ≤ s.untaken p name :=
  Finset.card_le_card (Finset.monotone_filter_right _ fun key _ hnone =>
    by_contra fun htaken => h key htaken hnone)

/-- Taking up a key leaves one less. -/
theorem Takes.untaken_lt (h : Takes name s t) (hfree : s.baseMembers.get? (p.key a, name) = none)
    (htaken : t.baseMembers.get? (p.key a, name) ≠ none) : t.untaken p name < s.untaken p name :=
  Program.card_filter_lt a (fun key hnone => by_contra fun hold => h key hold hnone) hfree htaken

section Agree

variable {α β : Type} {act act' : StateM Symbols α} {f f' : α → StateM Symbols β}

/-- Two actions that do the same, and give up no key that was taken. -/
def Agree (name : String) (act act' : StateM Symbols α) (s : Symbols) : Prop :=
  act s = act' s ∧ Takes name s (act s).2

theorem Agree.bind (h : Agree name act act' s)
    (hf : ∀ a t, act s = (a, t) → Takes name s t → Agree name (f a) (f' a) t) :
    Agree name (act >>= f) (act' >>= f') s := by
  obtain ⟨hsame, htakes⟩ := h
  obtain ⟨hsame', htakes'⟩ := hf (act s).1 (act s).2 rfl htakes
  constructor
  · show f (act s).1 (act s).2 = f' (act' s).1 (act' s).2
    rw [← hsame]
    exact hsame'
  · exact fun key hkey => htakes' key (htakes key hkey)

theorem agree_pure {a : α} : Agree name (pure a) (pure a) s := ⟨rfl, fun _ hkey => hkey⟩

theorem agree_get {f f' : Symbols → StateM Symbols α} (h : Agree name (f s) (f' s) s) :
    Agree name (get >>= f) (get >>= f') s := h

theorem keepBaseMembers_agree {key : SymbolKey} {members : Option (List SymbolRef)} :
    Agree name (keepBaseMembers key name members) (keepBaseMembers key name members) s := by
  refine ⟨rfl, fun other hother => ?_⟩
  show (s.baseMembers.insert (key, name) members).get? (other, name) ≠ none
  rw [Table.get?_insert]
  split
  · exact Option.some_ne_none _
  · exact hother

theorem baseSymbolsOf_agree : Agree name (baseSymbolsOf p a) (baseSymbolsOf p a) s := by
  refine agree_get ?_
  split
  · exact agree_pure
  · exact ⟨rfl, fun _ hkey => hkey⟩

end Agree

variable {ask ask' : SymbolRef → StateM Symbols (Option (List SymbolRef))} {depth : Nat}

/-- Along bases only what is ready is asked, as every answer leaves the rest ready. -/
theorem membersAlong_agree
    (h : ∀ base t, untaken p name t < depth → Agree name (ask base) (ask' base) t) :
    ∀ (bases : List SymbolRef) (s : Symbols), s.untaken p name < depth →
      Agree name (membersAlong p name ask bases) (membersAlong p name ask' bases) s
  | [], _, _ => agree_pure
  | base :: bases, s, hs => by
      have hrest (here : List SymbolRef) (t : Symbols) (ht : Takes name s t) :
          Agree name (do return here ++ (← membersAlong p name ask bases))
            (do return here ++ (← membersAlong p name ask' bases)) t :=
        (membersAlong_agree h bases t (Nat.lt_of_le_of_lt ht.untaken_le hs)).bind
          fun _ _ _ _ => agree_pure
      unfold membersAlong
      cases p.memberNamed base name with
      | some member => exact hrest [member] s fun _ hkey => hkey
      | none => exact (h base s hs).bind fun members t _ ht => hrest _ t ht

theorem searchBases_agree
    (h : ∀ base t, untaken p name t < depth → Agree name (ask base) (ask' base) t)
    (hs : s.untaken p name < depth) :
    Agree name (searchBases p name ask a) (searchBases p name ask' a) s :=
  baseSymbolsOf_agree.bind fun bases t _ ht => by
    cases bases with
    | none => exact agree_pure
    | some bases => exact membersAlong_agree h bases t (Nat.lt_of_le_of_lt ht.untaken_le hs)

/-- One level of the search takes up a key before it asks. -/
theorem seekMembers_agree
    (h : ∀ base t, untaken p name t < depth → Agree name (ask base) (ask' base) t)
    (hs : s.untaken p name < depth + 1) :
    Agree name (seekMembers p name ask a) (seekMembers p name ask' a) s := by
  refine agree_get ?_
  cases hmembers : s.baseMembers.get? (p.key a, name) with
  | some members => exact agree_pure
  | none =>
      -- The mark uses up one of the keys, so the bases are asked with a smaller bound.
      refine keepBaseMembers_agree.bind fun _ t hkept ht => ?_
      have htaken : t.untaken p name < depth := by
        have hkey : t.baseMembers.get? (p.key a, name) = some none := by
          cases hkept
          exact (Table.get?_insert _ _ _ _).trans (if_pos rfl)
        have hlt := ht.untaken_lt hmembers (by rw [hkey]; nofun)
        omega
      exact (searchBases_agree h htaken).bind fun _ _ _ _ =>
        keepBaseMembers_agree.bind fun _ _ _ _ => agree_pure

/-- **The search for members ends**, however the heritage runs: each level takes up another key. -/
theorem findBaseMembers_ends : EndsWithin (seekMembers p name) (p.symbols.size + 2) a s := by
  have hready : s.untaken p name < p.symbols.size + 2 :=
    Nat.lt_succ_of_le ((Finset.card_filter_le _ _).trans p.card_keys_le)
  exact endsWithin_of (fun depth _ t => t.untaken p name < depth)
    (fun _ t r => Takes name t r.2) (fun _ _ h => Nat.not_lt_zero _ h)
    (fun depth f f' ih a t ht => seekMembers_agree ih ht) hready

end Symbols

end SymbolGraph
