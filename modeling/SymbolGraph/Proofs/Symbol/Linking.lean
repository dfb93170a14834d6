import SymbolGraph.Moniker

/-!
# Proofs — Symbol — linking identifiers

A linker sees an identifier in writing only.  It takes what comes before the first colon for the path
of a module.  So it finds the two parts of an identifier again where the module path has no colon; and
it takes every identifier with a colon for one of a module, also that of a global symbol with a colon
in its name.

* `Text.splitOnce_eq_some_iff`: where a text is split.
* `NpmPackage.linked`: what a symbol is to be linked to, by where it is and how it is exported.
* `NpmPackage.link_module`: a module path without a colon is found again.
* `NpmPackage.Legible`: identifiers that do not mislead the linker.
* `NpmPackage.link_symbolIdentifier_iff`: exactly these are linked to what they should be.
-/

namespace SymbolGraph

/-! ### Splitting at the first separator -/

namespace Text

variable {sep : Char} {before after text : List Char}

theorem splitOnce_append (h : sep ∉ before) :
    splitOnce sep (before ++ sep :: after) = some (before, after) := by
  induction before with
  | nil => exact if_pos rfl
  | cons c before ih =>
      obtain ⟨hne, hrest⟩ := not_or.mp (mt List.mem_cons.mpr h)
      rw [List.cons_append, splitOnce, if_neg (Ne.symm hne), ih hrest]
      rfl

theorem splitOnce_of_not_mem (h : sep ∉ text) : splitOnce sep text = none := by
  induction text with
  | nil => rfl
  | cons c text ih =>
      obtain ⟨hne, hrest⟩ := not_or.mp (mt List.mem_cons.mpr h)
      rw [splitOnce, if_neg (Ne.symm hne), ih hrest]
      rfl

/-- A text is split at its first separator. -/
theorem splitOnce_eq_some_iff :
    splitOnce sep text = some (before, after) ↔ sep ∉ before ∧ text = before ++ sep :: after := by
  constructor
  · intro h
    by_cases hmem : sep ∈ text
    · obtain ⟨first, rest, rfl, hfirst⟩ := List.eq_append_cons_of_mem hmem
      rw [splitOnce_append hfirst] at h
      cases h
      exact ⟨hfirst, rfl⟩
    · rw [splitOnce_of_not_mem hmem] at h
      cases h
  · rintro ⟨hbefore, rfl⟩
    exact splitOnce_append hbefore

end Text

/-! ### Linking -/

namespace NpmPackage

variable (package : NpmPackage) {kind : LocationKind} {modulePath exportPath : String}
  {first rest : List Char}

/-- What a symbol of a module is called in the package. -/
def qualified (modulePath exportPath : String) : String :=
  if package.main = some modulePath then package.name ++ "::" ++ exportPath
  else package.name ++ ":" ++ modulePath ++ ":" ++ exportPath

/-- What a symbol is to be linked to: symbols of modules have a name in the package, others none. -/
def linked : LocationKind → (modulePath exportPath : String) → Option String
  | .module,  modulePath, exportPath => some (package.qualified modulePath exportPath)
  | .global,  _,          _          => none
  | .library, _,          _          => none

/-- An identifier does not mislead the linker.  A module path with a colon is neither the entry point
nor taken for it by the text before its first colon; an export path outside modules has no colon. -/
def Legible : LocationKind → (modulePath exportPath : String) → Prop
  | .module, modulePath, _ =>
      ∀ first rest, modulePath.toList = first ++ ':' :: rest → ':' ∉ first →
        package.main ≠ some modulePath ∧ (package.main = some (String.ofList first) → first = [])
  | .global,  _, exportPath => ':' ∉ exportPath.toList
  | .library, _, exportPath => ':' ∉ exportPath.toList

variable {package}

/-- What is linked is split at the first colon. -/
theorem link_eq (h : ':' ∉ first) :
    package.link (String.ofList (first ++ ':' :: rest))
      = some (package.qualified (String.ofList first) (String.ofList rest)) := by
  unfold link qualified
  rw [String.toList_ofList, Text.splitOnce_append h]
  rfl

theorem link_of_not_mem {identifier : String} (h : ':' ∉ identifier.toList) :
    package.link identifier = none := by
  unfold link
  rw [Text.splitOnce_of_not_mem h]
  rfl

theorem symbolIdentifier_module : symbolIdentifier .module modulePath exportPath
    = String.ofList (modulePath.toList ++ ':' :: exportPath.toList) := by
  refine String.toList_inj.mp ?_
  simp [symbolIdentifier]

/-- Without a colon in the module path the linker finds both parts again. -/
theorem link_module (h : ':' ∉ modulePath.toList) :
    package.link (symbolIdentifier .module modulePath exportPath)
      = package.linked .module modulePath exportPath := by
  rw [symbolIdentifier_module, link_eq h, String.ofList_toList, String.ofList_toList]
  rfl

/-- A module path with a colon is cut there. -/
theorem link_module_cut (hpath : modulePath.toList = first ++ ':' :: rest) (h : ':' ∉ first) :
    package.link (symbolIdentifier .module modulePath exportPath)
      = some (package.qualified (String.ofList first)
          (String.ofList (rest ++ ':' :: exportPath.toList))) := by
  rw [symbolIdentifier_module, hpath, List.append_assoc, List.cons_append, link_eq h]

/-- Cut at a colon, a module path still gives the name it should, unless one of the two is the entry
point. -/
theorem qualified_cut_iff (hpath : modulePath.toList = first ++ ':' :: rest) :
    package.qualified (String.ofList first) (String.ofList (rest ++ ':' :: exportPath.toList))
        = package.qualified modulePath exportPath ↔
      package.main ≠ some modulePath ∧ (package.main = some (String.ofList first) → first = []) := by
  have hne : modulePath ≠ String.ofList first := by
    rintro rfl
    simp at hpath
  unfold qualified
  by_cases hmain : package.main = some modulePath
  · rw [if_pos hmain, if_neg (hmain ▸ fun heq => hne (Option.some.inj heq))]
    refine iff_of_false (fun heq => ?_) fun h => h.1 hmain
    have hlength := congrArg (fun text => text.toList.length) heq
    simp only [String.toList_append, String.toList_ofList, List.length_append, List.length_cons,
      String.reduceToList, List.length_nil] at hlength
    omega
  · by_cases hfirst : package.main = some (String.ofList first)
    · rw [if_pos hfirst, if_neg hmain, and_iff_right hmain, imp_iff_right hfirst,
        ← String.toList_inj]
      simp [hpath]
    · rw [if_neg hfirst, if_neg hmain]
      refine iff_of_true (String.toList_inj.mp ?_) ⟨hmain, fun h => absurd h hfirst⟩
      simp [hpath]

/-- **Linking undoes identifiers** exactly where they do not mislead the linker. -/
theorem link_symbolIdentifier_iff :
    package.link (symbolIdentifier kind modulePath exportPath)
        = package.linked kind modulePath exportPath ↔
      package.Legible kind modulePath exportPath := by
  have hbare : package.link exportPath = none ↔ ':' ∉ exportPath.toList := by
    constructor
    · intro h hmem
      obtain ⟨first, rest, hpath, hfirst⟩ := List.eq_append_cons_of_mem hmem
      rw [← String.ofList_toList (s := exportPath), hpath, link_eq hfirst] at h
      cases h
    · exact link_of_not_mem
  cases kind with
  | library => exact hbare
  | global => exact hbare
  | module =>
      by_cases hmem : ':' ∈ modulePath.toList
      · obtain ⟨first, rest, hpath, hfirst⟩ := List.eq_append_cons_of_mem hmem
        rw [link_module_cut hpath hfirst, linked, Option.some.injEq, qualified_cut_iff hpath]
        refine ⟨fun h first' rest' hpath' hfirst' => ?_, fun h => h first rest hpath hfirst⟩
        -- There is one first colon only.
        have hsplit := (Text.splitOnce_eq_some_iff.mpr ⟨hfirst, hpath⟩).symm.trans
          (Text.splitOnce_eq_some_iff.mpr ⟨hfirst', hpath'⟩)
        cases hsplit
        exact h
      · refine iff_of_true (link_module hmem) fun first rest hpath => ?_
        simp [hpath] at hmem

/-- **A colon misleads the linker**: the ambient module `node:fs` is no module of the package. -/
theorem not_forall_link_symbolIdentifier :
    ¬ ∀ (package : NpmPackage) (kind : LocationKind) (modulePath exportPath : String),
      package.link (symbolIdentifier kind modulePath exportPath)
        = package.linked kind modulePath exportPath := fun h =>
  absurd (h ⟨"pkg", "1.0.0", none⟩ .global "types" "\"node:fs\"") (by decide)

end NpmPackage

end SymbolGraph
