import SymbolGraph.Proofs.Table
import SymbolGraph.Symbol.ExportPath
import SymbolGraph.Symbol.Heritage
import SymbolGraph.Symbol.Resolution

/-!
# Proofs — Symbol — what a module shelters

While a module is walked, what it exports is asserted, and a symbol that is asserted has an export
path.  A path that hangs on an assertion is never kept, so no question asked meanwhile can spoil the
answer; only another symbol with the key of the module could.

* `Symbols.Shelters`: a module is asserted as the parent of a symbol and asserted to export it.
* `Symbols.Learns`: what asking a question may change.
* `Symbols.exportPath_asks`: asking for an export path only learns, and a sheltered symbol has one.
* `Symbols.forward_guards`, `Symbols.shelters_assertingAll`: what forwarding leaves alone, and what
  asserting exports brings about.
-/

namespace SymbolGraph.Symbols

variable {p : Program} {kind : Option LocationKind} {module symbol : SymbolRef} {key : SymbolKey}
  {s t u : Symbols}

/-- A module is asserted as the parent of the symbols with a key and asserted to export them, and
neither is remembered as not exported.  All symbols with the key of the module stand for files. -/
structure Shelters (p : Program) (module : SymbolRef) (key : SymbolKey) (s : Symbols) : Prop where
  stands  : p.isSourceFileSymbol module = true
  alone   : ∀ symbol, p.key symbol = p.key module →
    p.isSourceFileSymbol symbol = true ∨ p.key symbol = key
  parent  : s.overrides.parents.get? key = some module
  exports : s.overrides.exports (p.key module) key = true
  kept    : s.exportPaths.get? key ≠ some none
  above   : s.exportPaths.get? (p.key module) ≠ some none

/-- What asking a question may change: what is remembered stays, what is asserted stays, and what is
sheltered stays sheltered. -/
structure Learns (p : Program) (s t : Symbols) : Prop where
  overrides : t.overrides = s.overrides
  kept      : ∀ key path, s.exportPaths.get? key = some path → t.exportPaths.get? key = some path
  shelters  : ∀ module key, s.Shelters p module key → t.Shelters p module key

theorem Learns.refl (s : Symbols) : s.Learns p s := ⟨rfl, fun _ _ h => h, fun _ _ h => h⟩

theorem Learns.trans (h : s.Learns p t) (h' : t.Learns p u) : s.Learns p u where
  overrides := h'.overrides.trans h.overrides
  kept key path hpath := h'.kept key path (h.kept key path hpath)
  shelters module key hs := h'.shelters module key (h.shelters module key hs)

/-- What is sheltered after a question was sheltered before. -/
theorem Learns.sheltered (h : s.Learns p t) (ht : t.Shelters p module key) :
    s.Shelters p module key where
  stands := ht.stands
  alone := ht.alone
  parent := h.overrides ▸ ht.parent
  exports := h.overrides ▸ ht.exports
  kept hnone := ht.kept (h.kept _ _ hnone)
  above hnone := ht.above (h.kept _ _ hnone)

/-- Other tables may change as they like. -/
theorem learns_of_eq (ho : t.overrides = s.overrides) (he : t.exportPaths = s.exportPaths) :
    s.Learns p t where
  overrides := ho
  kept _ _ hpath := he ▸ hpath
  shelters _ _ hs := ⟨hs.stands, hs.alone, ho ▸ hs.parent, ho ▸ hs.exports, he ▸ hs.kept,
    he ▸ hs.above⟩

/-- A new path may be kept, if it is one or belongs to a symbol that no assertion is about. -/
theorem Learns.keep {path : Option String} (h : s.Learns p t) (hnew : s.exportPaths.get? key = none)
    (hpath : ∀ module other, t.Shelters p module other → other = key ∨ p.key module = key →
      path ≠ none) :
    s.Learns p { t with exportPaths := t.exportPaths.insert key path } where
  overrides := h.overrides
  kept other path' hother := by
    have hne : other ≠ key := by
      rintro rfl
      rw [hnew] at hother
      cases hother
    exact (t.exportPaths.get?_insert key other path).trans ((if_neg hne).trans (h.kept _ _ hother))
  shelters module other hs := by
    have ht := h.shelters module other hs
    have hinsert (k : SymbolKey) (hold : t.exportPaths.get? k ≠ some none)
        (hk : k = key → path ≠ none) :
        (t.exportPaths.insert key path).get? k ≠ some none := by
      rw [Table.get?_insert]
      split
      · rename_i heq
        exact fun hnone => hk heq (Option.some.inj hnone)
      · exact hold
    exact ⟨ht.stands, ht.alone, ht.parent, ht.exports,
      hinsert other ht.kept fun heq => hpath module other ht (.inl heq),
      hinsert (p.key module) ht.above fun heq => hpath module other ht (.inr heq)⟩

/-! ### Asking -/

section Asks

variable {α β : Type}

/-- A question that only learns, and what its answer is. -/
def Asks (p : Program) (act : StateM Symbols α) (s : Symbols) (post : α → Symbols → Prop) : Prop :=
  s.Learns p (act s).2 ∧ post (act s).1 (act s).2

theorem Asks.mono {act : StateM Symbols α} {post post' : α → Symbols → Prop} (h : Asks p act s post)
    (hp : ∀ a t, post a t → post' a t) : Asks p act s post' :=
  ⟨h.1, hp _ _ h.2⟩

theorem Asks.bind {act : StateM Symbols α} {f : α → StateM Symbols β} {post : α → Symbols → Prop}
    {post' : β → Symbols → Prop} (h : Asks p act s post)
    (hf : ∀ a t, s.Learns p t → post a t → Asks p (f a) t post') : Asks p (act >>= f) s post' := by
  obtain ⟨hlearns, hpost⟩ := hf _ _ h.1 h.2
  exact ⟨h.1.trans hlearns, hpost⟩

theorem asks_pure {a : α} {post : α → Symbols → Prop} (h : post a s) : Asks p (pure a) s post :=
  ⟨.refl s, h⟩

theorem asks_get {f : Symbols → StateM Symbols α} {post : α → Symbols → Prop}
    (h : Asks p (f s) s post) : Asks p (get >>= f) s post := h

end Asks

/-! ### Export paths -/

/-- A symbol that stands for a file, or whose parent is asserted. -/
def IsSettled (p : Program) (s : Symbols) (symbol : SymbolRef) : Prop :=
  p.isSourceFileSymbol symbol = true ∨ s.overrides.parents.get? (p.key symbol) ≠ none

theorem Shelters.isSettled {other : SymbolKey} (h : s.Shelters p module other)
    (heq : other = p.key symbol ∨ p.key module = p.key symbol) : s.IsSettled p symbol := by
  have hgiven (hkey : other = p.key symbol) : s.IsSettled p symbol := by
    refine .inr ?_
    rw [← hkey, h.parent]
    nofun
  rcases heq with hkey | hkey
  · exact hgiven hkey
  · exact (h.alone symbol hkey.symm).elim .inl fun hsame => hgiven hsame.symm

section Derive

variable {ask : SymbolRef → StateM Symbols ExportAnswer}

/-- An answer takes at most one other question.  Where it is settled and yet not a path, it hangs on
an assertion. -/
theorem deriveExportPath_asks (hask : ∀ other t, Asks p (ask other) t fun _ _ => True) :
    Asks p (deriveExportPath p kind ask symbol) s fun answer _ =>
      s.IsSettled p symbol → answer.consulted = true ∨ answer.path ≠ none := by
  unfold deriveExportPath
  split
  · exact asks_pure fun _ => .inr (Option.some_ne_none _)
  · rename_i hfile
    refine asks_get ?_
    dsimp only
    cases hgiven : s.overrides.parents.get? (p.key symbol) with
    | some parent =>
        refine (hask parent s).bind fun above t _ _ => ?_
        split
        · exact asks_pure fun _ => .inl rfl
        · split
          · exact asks_pure fun _ => .inl rfl
          · split
            · exact asks_pure fun _ => .inl rfl
            · exact asks_pure fun _ => .inl rfl
    | none =>
        -- Without an override of its parent the symbol is not settled, and nothing is claimed of
        -- the answer.
        have hunsettled {answer : ExportAnswer} :
            s.IsSettled p symbol → answer.consulted = true ∨ answer.path ≠ none :=
          fun hsettled => absurd hsettled (not_or.mpr ⟨hfile, not_not.mpr hgiven⟩)
        rw [Option.none_or]
        cases p.parentSymbol symbol with
        | none =>
            dsimp only
            split
            · exact asks_pure hunsettled
            · split
              · exact asks_pure hunsettled
              · exact (hask _ s).bind fun _ _ _ _ => asks_pure hunsettled
        | some parent =>
            refine (hask parent s).bind fun above t _ _ => ?_
            split
            · exact asks_pure hunsettled
            · split
              · exact asks_pure hunsettled
              · split
                · exact asks_pure hunsettled
                · exact asks_pure hunsettled

/-- A symbol that stands for a file has the empty path. -/
theorem deriveExportPath_file (h : p.isSourceFileSymbol symbol = true) :
    Asks p (deriveExportPath p kind ask symbol) s fun answer _ => answer.path = some "" := by
  unfold deriveExportPath
  rw [if_pos h]
  exact asks_pure rfl

/-- A sheltered symbol has a path, if its module has one. -/
theorem deriveExportPath_sheltered (h : s.Shelters p module (p.key symbol))
    (hask : Asks p (ask module) s fun above _ => above.path ≠ none) :
    Asks p (deriveExportPath p kind ask symbol) s fun answer _ => answer.path ≠ none := by
  unfold deriveExportPath
  split
  · exact asks_pure (Option.some_ne_none _)
  · refine asks_get ?_
    dsimp only
    rw [h.parent, Option.some_or]
    refine hask.bind fun above t _ habove => ?_
    split
    · rename_i hnone
      exact absurd hnone habove
    · split
      · exact asks_pure (Option.some_ne_none _)
      · rw [if_pos h.exports]
        exact asks_pure (Option.some_ne_none _)

end Derive

/-- What was derived may be remembered, unless it is settled and no path. -/
theorem asks_remember {derive : StateM Symbols ExportAnswer} {post : ExportAnswer → Prop}
    (hnew : s.exportPaths.get? (p.key symbol) = none)
    (h : Asks p derive s fun answer _ =>
      (s.IsSettled p symbol → answer.consulted = true ∨ answer.path ≠ none) ∧ post answer) :
    Asks p (remember p symbol derive) s fun answer _ => post answer := by
  obtain ⟨hlearns, hsettled, hpost⟩ := h
  show s.Learns p ((if (derive s).1.consulted = true then _ else _ :
      StateM Symbols ExportAnswer) (derive s).2).2 ∧
    post ((if (derive s).1.consulted = true then _ else _ :
      StateM Symbols ExportAnswer) (derive s).2).1
  split
  · exact ⟨hlearns, hpost⟩
  · rename_i hfree
    refine ⟨hlearns.keep hnew fun module other hs heq => ?_, hpost⟩
    exact (hsettled ((hlearns.sheltered hs).isSettled heq)).resolve_left hfree

/-- **Asking for an export path only learns**, and a symbol that is sheltered has one. -/
theorem exportPathWithin_asks : ∀ (fuel : Nat) (symbol : SymbolRef) (s : Symbols),
    Asks p (exportPathWithin p kind fuel symbol) s fun answer _ =>
      (0 < fuel → p.isSourceFileSymbol symbol = true →
        s.exportPaths.get? (p.key symbol) ≠ some none → answer.path ≠ none) ∧
      (1 < fuel → ∀ module, s.Shelters p module (p.key symbol) → answer.path ≠ none)
  | 0, _, _ => asks_pure ⟨nofun, nofun⟩
  | fuel + 1, symbol, s => by
      refine asks_get ?_
      cases hmemory : s.exportPaths.get? (p.key symbol) with
      | some path =>
          refine asks_pure ⟨fun _ _ hkept hnone => hkept (congrArg some hnone),
            fun _ module hs hnone => hs.kept (hmemory.trans (congrArg some hnone))⟩
      | none =>
          have hask := exportPathWithin_asks fuel
          have hderive : Asks p (deriveExportPath p kind (exportPathWithin p kind fuel) symbol) s
              fun answer _ => s.IsSettled p symbol → answer.consulted = true ∨ answer.path ≠ none :=
            deriveExportPath_asks fun other t => (hask other t).mono fun _ _ _ => trivial
          refine asks_remember hmemory ⟨hderive.1, hderive.2, fun _ hfile _ hnone => ?_,
            fun hfuel module hs hnone => ?_⟩
          · exact nomatch (deriveExportPath_file hfile).2.symm.trans hnone
          · have hmodule := (hask module s).mono fun _ _ hanswer =>
              hanswer.1 (by omega) hs.stands hs.above
            exact (deriveExportPath_sheltered hs hmodule).2 hnone

theorem exportPath_asks : Asks p (exportPath p symbol kind) s fun path _ =>
    ∀ module, s.Shelters p module (p.key symbol) → path ≠ none :=
  (exportPathWithin_asks _ symbol s).bind fun _ _ _ hanswer => asks_pure (hanswer.2 (by omega))

/-! ### Heritage -/

/-- Other tables may be written to. -/
theorem asks_modify {f : Symbols → Symbols} (ho : (f s).overrides = s.overrides)
    (he : (f s).exportPaths = s.exportPaths) : Asks p (modify f) s fun _ _ => True :=
  ⟨learns_of_eq ho he, trivial⟩

theorem baseSymbolsOf_asks : Asks p (baseSymbolsOf p symbol) s fun _ _ => True := by
  refine asks_get ?_
  split
  · exact asks_pure trivial
  · exact (asks_modify rfl rfl).bind fun _ _ _ _ => asks_pure trivial

theorem membersAlong_asks {name : String}
    {ask : SymbolRef → StateM Symbols (Option (List SymbolRef))}
    (hask : ∀ base t, Asks p (ask base) t fun _ _ => True) :
    ∀ (bases : List SymbolRef) (s : Symbols), Asks p (membersAlong p name ask bases) s fun _ _ => True
  | [], _ => asks_pure trivial
  | base :: bases, s => by
      unfold membersAlong
      split
      · exact (membersAlong_asks hask bases s).bind fun _ _ _ _ => asks_pure trivial
      · refine (hask base s).bind fun found t _ _ => ?_
        exact (membersAlong_asks hask bases t).bind fun _ _ _ _ => asks_pure trivial

theorem searchBases_asks {name : String}
    {ask : SymbolRef → StateM Symbols (Option (List SymbolRef))}
    (hask : ∀ base t, Asks p (ask base) t fun _ _ => True) :
    Asks p (searchBases p name ask symbol) s fun _ _ => True :=
  baseSymbolsOf_asks.bind fun bases t _ _ => by
    cases bases with
    | none => exact asks_pure trivial
    | some bases => exact membersAlong_asks hask bases t

theorem findBaseMembersWithin_asks {name : String} : ∀ (fuel : Nat) (symbol : SymbolRef)
    (s : Symbols), Asks p (findBaseMembersWithin p name fuel symbol) s fun _ _ => True
  | 0, _, _ => asks_pure trivial
  | fuel + 1, symbol, s => by
      refine asks_get ?_
      split
      · exact asks_pure trivial
      · refine (asks_modify rfl rfl).bind fun _ t _ _ => ?_
        exact (searchBases_asks (findBaseMembersWithin_asks fuel)).bind fun _ _ _ _ =>
          (asks_modify rfl rfl).bind fun _ _ _ _ => asks_pure trivial

/-- **Asking for the members of supertypes only learns.** -/
theorem findBaseMembers_asks {name : String} :
    Asks p (findBaseMembers p symbol name) s fun _ _ => True :=
  findBaseMembersWithin_asks _ symbol s

/-! ### Forwards and exports -/

/-- What is sheltered stays sheltered. -/
def Guards (p : Program) (s t : Symbols) : Prop :=
  ∀ module key, s.Shelters p module key → t.Shelters p module key

theorem Guards.trans (h : s.Guards p t) (h' : t.Guards p u) : s.Guards p u :=
  fun module key hs => h' module key (h module key hs)

/-- Assertions of other sorts may change; what was remembered may be forgotten. -/
theorem guards_of_parents (hp : t.overrides.parents = s.overrides.parents)
    (he : t.overrides.exported = s.overrides.exported)
    (hpaths : t.exportPaths = s.exportPaths ∨ t.exportPaths = ∅) : s.Guards p t := by
  intro module key hs
  have hkept (k : SymbolKey) (hold : s.exportPaths.get? k ≠ some none) :
      t.exportPaths.get? k ≠ some none := by
    rcases hpaths with hsame | hempty
    · rw [hsame]
      exact hold
    · rw [hempty]
      nofun
  refine ⟨hs.stands, hs.alone, hp ▸ hs.parent, ?_, hkept _ hs.kept, hkept _ hs.above⟩
  rw [Overrides.exports, he]
  exact hs.exports

/-- Overrides that only forward names. -/
def OnlyForwards (overrides : List Override) : Prop :=
  ∀ override ∈ overrides, ∃ key name, override = .forwarded key name

theorem release_guards {override : Override} (h : ∃ key name, override = .forwarded key name) :
    s.Guards p { s with overrides := s.overrides.release override } := by
  obtain ⟨key, name, rfl⟩ := h
  simp only [Overrides.release]
  split
  · exact guards_of_parents rfl rfl (.inl rfl)
  · exact guards_of_parents rfl rfl (.inl rfl)

theorem addForwards_guards {target : SymbolRef} : ∀ (names : List (NodeId × String)) (s : Symbols),
    OnlyForwards (addForwards p target names s).1 ∧
      s.Guards p (addForwards p target names s).2
  | [], _ => ⟨nofun, fun _ _ hs => hs⟩
  | (literal, name) :: rest, s => by
      unfold addForwards
      cases p.symbolAt literal with
      | none => exact addForwards_guards rest s
      | some symbol =>
          obtain ⟨honly, hguards⟩ := addForwards_guards rest
            (s.override fun o => o.addForward (p.key symbol) { target, name })
          have hadds : s.Guards p (s.override fun o =>
              o.addForward (p.key symbol) { target, name }) :=
            guards_of_parents rfl rfl (.inr rfl)
          refine ⟨fun override hmem => ?_, hadds.trans hguards⟩
          rcases List.mem_cons.mp hmem with heq | hmem
          · exact ⟨_, _, heq⟩
          · exact honly override hmem

/-- **A type alias forwards names and touches no other assertion.** -/
theorem forward_guards {resolution : Resolution} {declaration : NodeId} :
    OnlyForwards (forward resolution p declaration s).1 ∧
      s.Guards p (forward resolution p declaration s).2 := by
  have hnothing : OnlyForwards [] ∧ s.Guards p s := ⟨nofun, fun _ _ hs => hs⟩
  cases resolution with
  | typeAlias =>
      show OnlyForwards (forwardTypeAlias p declaration s).1 ∧
        s.Guards p (forwardTypeAlias p declaration s).2
      unfold forwardTypeAlias
      cases p.nameOf declaration with
      | none => exact hnothing
      | some name =>
          dsimp only
          cases p.symbolAt name with
          | none => exact hnothing
          | some target => exact addForwards_guards _ s
  | _ => exact hnothing

/-- A module is asserted as the parent of a target and asserted to export it. -/
def asserting (p : Program) (module target : SymbolRef) (s : Symbols) : Symbols :=
  (s.override fun o => o.addParent (p.key target) module).override
    fun o => o.addExport (p.key module) (p.key target)

section Asserting

variable {target : SymbolRef}

theorem parents_asserting : (s.asserting p module target).overrides.parents
    = s.overrides.parents.insert (p.key target) module := by
  show (Overrides.addExport (s.overrides.addParent _ _) _ _).parents = _
  unfold Overrides.addExport
  split <;> rfl

theorem exports_asserting {parent child : SymbolKey} :
    (s.asserting p module target).overrides.exports parent child = true ↔
      s.overrides.exports parent child = true ∨ parent = p.key module ∧ child = p.key target := by
  show (Overrides.addExport (s.overrides.addParent _ _) _ _).exports parent child = true ↔ _
  unfold Overrides.addExport
  split
  · rename_i hknown
    refine (or_iff_left_of_imp fun hnew => ?_).symm
    rw [hnew.1, hnew.2]
    exact hknown
  · simp [Overrides.exports, Overrides.addParent]

/-- **What a module is asserted to export it shelters.** -/
theorem shelters_asserting (hstands : p.isSourceFileSymbol module = true)
    (halone : ∀ symbol, p.key symbol = p.key module →
      p.isSourceFileSymbol symbol = true ∨ p.key symbol = p.key target) :
    (s.asserting p module target).Shelters p module (p.key target) where
  stands := hstands
  alone := halone
  parent := by rw [parents_asserting, Table.get?_insert, if_pos rfl]
  exports := exports_asserting.mpr (.inr ⟨rfl, rfl⟩)
  kept := nofun
  above := nofun

/-- A module that exports more still shelters what it sheltered. -/
theorem Shelters.asserting (h : s.Shelters p module key) :
    (s.asserting p module target).Shelters p module key where
  stands := h.stands
  alone := h.alone
  parent := by
    rw [parents_asserting, Table.get?_insert]
    split
    · rfl
    · exact h.parent
  exports := exports_asserting.mpr (.inl h.exports)
  kept := nofun
  above := nofun

end Asserting

/-- A module is asserted to export symbols. -/
def assertingAll (p : Program) (module : SymbolRef) (targets : List SymbolRef) (s : Symbols) :
    Symbols :=
  targets.foldl (fun known target => known.asserting p module target) s

theorem Shelters.assertingAll {targets : List SymbolRef} (h : s.Shelters p module key) :
    (s.assertingAll p module targets).Shelters p module key := by
  induction targets generalizing s with
  | nil => exact h
  | cons target targets ih => exact ih h.asserting

/-- **A module shelters all that it is asserted to export.** -/
theorem shelters_assertingAll {target : SymbolRef} {targets : List SymbolRef}
    (hstands : p.isSourceFileSymbol module = true)
    (halone : ∀ symbol, p.key symbol = p.key module →
      p.isSourceFileSymbol symbol = true ∨ p.key symbol = p.key target)
    (hmem : target ∈ targets) :
    (s.assertingAll p module targets).Shelters p module (p.key target) := by
  induction targets generalizing s with
  | nil => cases hmem
  | cons other targets ih =>
      rcases List.mem_cons.mp hmem with rfl | hmem
      · exact (shelters_asserting hstands halone).assertingAll
      · exact ih hmem

end SymbolGraph.Symbols
