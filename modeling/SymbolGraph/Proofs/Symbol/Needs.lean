import Mathlib.Data.Finset.Card
import Mathlib.Data.Finset.Image
import Mathlib.Data.Finset.Range
import Mathlib.Logic.Relation
import SymbolGraph.Proofs.Symbol.Leading
import SymbolGraph.Session.Resolve

/-!
# Proofs — Symbol — which symbols a symbol needs

The record of a symbol may need the records of others: the target of an alias, the members that a
method overrides, and the properties behind a shared property.  The members are looked up in tables
that know symbols by their keys, so they are those of any symbols with the keys of the supertypes.

* `Program.Overridden`: a member of a name along the supertypes of the symbols with a key.
* `Program.Needs`: the record of one symbol directly needs that of another.
* `Symbols.Founded`: the tables and the overrides only hold what follows from the program.
* `Symbols.findBaseMembers_grounds`: so does every answer.
-/

namespace SymbolGraph

namespace Program

variable {p : Program}

/-- The keys of all symbols.  Those that do not exist share one. -/
def keys (p : Program) : Finset SymbolKey :=
  (Finset.range (p.symbols.size + 1)).image fun i => p.key ⟨i⟩

/-- The key of a symbol is one of the program's keys. -/
theorem key_mem_keys (p : Program) (symbol : SymbolRef) : p.key symbol ∈ p.keys := by
  refine Finset.mem_image.mpr ⟨min symbol.index p.symbols.size, by simp, ?_⟩
  by_cases hlt : symbol.index < p.symbols.size
  · rw [Nat.min_eq_left (Nat.le_of_lt hlt)]
  · have hge := Nat.le_of_not_lt hlt
    rw [Nat.min_eq_right hge, key_of_missing hge]
    exact key_of_missing (Nat.le_refl _)

/-- There are no more keys than symbols, and one for those without coordinates. -/
theorem card_keys_le (p : Program) : p.keys.card ≤ p.symbols.size + 1 :=
  Finset.card_image_le.trans (Nat.le_of_eq (Finset.card_range _))

/-- Fewer keys have a property once that of a symbol has lost it and no key has come by it. -/
theorem card_filter_lt {before after : SymbolKey → Prop} [DecidablePred before]
    [DecidablePred after] (symbol : SymbolRef) (himp : ∀ key, after key → before key)
    (hbefore : before (p.key symbol)) (hlost : ¬ after (p.key symbol)) :
    (p.keys.filter after).card < (p.keys.filter before).card := by
  refine Finset.card_lt_card ((Finset.ssubset_iff_of_subset
    (Finset.monotone_filter_right _ fun key _ => himp key)).mpr
    ⟨p.key symbol, Finset.mem_filter.mpr ⟨p.key_mem_keys symbol, hbefore⟩, fun hmem => ?_⟩)
  exact hlost (Finset.mem_filter.mp hmem).2

/-- A member of a name along the supertypes of the symbols with a key.  A supertype that has the
member is not searched further. -/
inductive Overridden (p : Program) (name : String) : SymbolKey → SymbolRef → Prop
  | here {symbol base member : SymbolRef} : base ∈ (p.directBases symbol).getD [] →
      p.memberNamed base name = some member → Overridden p name (p.key symbol) member
  | above {symbol base member : SymbolRef} : base ∈ (p.directBases symbol).getD [] →
      p.memberNamed base name = none → Overridden p name (p.key base) member →
      Overridden p name (p.key symbol) member

/-- The record of one symbol directly needs that of another. -/
inductive Needs (p : Program) : Request → Request → Prop
  /-- An alias needs its target. -/
  | target {symbol target : SymbolRef} {location : Option NodeId} :
      p.resolution symbol location = .ofAlias → p.aliasedSymbol symbol = some target →
      Needs p ⟨symbol, location⟩ ⟨target, none⟩
  /-- A method needs the members that it overrides. -/
  | overridden {symbol parent base : SymbolRef} {location : Option NodeId} :
      p.resolution symbol location = .method → p.parentSymbol symbol = some parent →
      p.Overridden (p.symbolName symbol) (p.key parent) base → base ≠ symbol →
      Needs p ⟨symbol, location⟩ ⟨base, none⟩
  /-- A property shared by the arms of a union needs the property of each arm. -/
  | property {symbol property : SymbolRef} {node : NodeId} {type : TypeRef} :
      p.resolution symbol (some node) = .composite →
      type ∈ (p.receiverConstituents node).getD [] →
      p.propertyOf type (p.symbolName symbol) = some property →
      Needs p ⟨symbol, some node⟩ ⟨property, some node⟩

/-- The record of one symbol needs that of another, directly or through others, or is the same. -/
abbrev Reaches (p : Program) : Request → Request → Prop := Relation.ReflTransGen p.Needs

end Program

namespace Symbols

variable {α β : Type} {p : Program} {s t : Symbols} {name : String}

/-- The tables of supertypes and of members and the overrides only hold what follows from the
program. -/
structure Founded (p : Program) (s : Symbols) : Prop where
  bases     : ∀ key bases, s.baseSymbols.get? key = some bases →
    ∃ symbol, p.key symbol = key ∧ p.directBases symbol = bases
  members   : ∀ key name members, s.baseMembers.get? (key, name) = some members →
    ∀ member ∈ members.getD [], p.Overridden name key member
  overrides : s.overrides.Asserted p

/-- Export paths have no part in it. -/
theorem Founded.override (h : s.Founded p) (hbases : t.baseSymbols = s.baseSymbols)
    (hmembers : t.baseMembers = s.baseMembers) (hoverrides : t.overrides.Asserted p) : t.Founded p :=
  ⟨hbases ▸ h.bases, hmembers ▸ h.members, hoverrides⟩

/-- From tables that are founded, an action leaves them so, and its answer is as it should be. -/
def Grounds (p : Program) (act : StateM Symbols α) (s : Symbols) (post : α → Prop) : Prop :=
  s.Founded p → (act s).2.Founded p ∧ post (act s).1

/-- What both parts ground is grounded one after the other. -/
theorem Grounds.bind {act : StateM Symbols α} {f : α → StateM Symbols β} {post : α → Prop}
    {post' : β → Prop} (h : Grounds p act s post)
    (hf : ∀ a t, post a → Grounds p (f a) t post') : Grounds p (act >>= f) s post' := by
  intro hs
  obtain ⟨ht, hpost⟩ := h hs
  exact hf _ _ hpost ht

theorem grounds_pure {a : α} {post : α → Prop} (h : post a) : Grounds p (pure a) s post :=
  fun hs => ⟨hs, h⟩

theorem grounds_get {f : Symbols → StateM Symbols α} {post : α → Prop}
    (h : Grounds p (f s) s post) : Grounds p (get >>= f) s post := h

/-- A change of overrides and export paths. -/
theorem grounds_modify {f : Symbols → Symbols} (hbases : (f s).baseSymbols = s.baseSymbols)
    (hmembers : (f s).baseMembers = s.baseMembers)
    (hoverrides : s.overrides.Asserted p → (f s).overrides.Asserted p) :
    Grounds p (modify f) s fun _ => True :=
  fun hs => ⟨hs.override hbases hmembers (hoverrides hs.overrides), trivial⟩

/-! ### Overrides -/

/-- A parent that the program adopts may be asserted. -/
theorem addParent_grounds {symbol parent : SymbolRef} (h : p.Adopts (p.key symbol) parent) :
    Grounds p (addParent p symbol parent) s fun _ => True :=
  (grounds_modify rfl rfl fun hs => hs.addParent h).bind fun _ _ _ => grounds_pure trivial

theorem addExport_grounds {parent child : SymbolRef} :
    Grounds p (addExport p parent child) s fun _ => True :=
  (grounds_modify rfl rfl fun hs => hs.addExport).bind fun _ _ _ => grounds_pure trivial

theorem release_grounds {override : Override} : Grounds p (release override) s fun _ => True :=
  grounds_modify rfl rfl fun hs => hs.release override

/-- By induction on the names: each literal is forwarded as the program says. -/
theorem addForwards_grounds {target : SymbolRef} : ∀ (names : List (NodeId × String)) (s : Symbols),
    (∀ pair ∈ names, ∀ symbol, p.symbolAt pair.1 = some symbol →
      p.Forwards (p.key symbol) target) → Grounds p (addForwards p target names) s fun _ => True
  | [], _, _ => grounds_pure trivial
  | (literal, name) :: rest, s, h => by
      have hrest (t : Symbols) :=
        addForwards_grounds rest t fun pair hpair => h pair (List.mem_cons_of_mem _ hpair)
      unfold addForwards
      cases hsymbol : p.symbolAt literal with
      | none => exact hrest s
      | some symbol =>
          have hforwards := h _ List.mem_cons_self symbol hsymbol
          have hforward : Grounds p (addForward p symbol target name) s fun _ => True :=
            (grounds_modify rfl rfl fun hs => hs.addForward hforwards).bind
              fun _ _ _ => grounds_pure trivial
          exact hforward.bind fun _ t _ => (hrest t).bind fun _ _ _ => grounds_pure trivial

/-- A type alias forwards its type literals. -/
theorem forward_grounds {resolution : Resolution} {declaration : NodeId}
    (hkind : p.kind declaration = .typeAliasDeclaration) :
    Grounds p (forward resolution p declaration) s fun _ => True := by
  unfold forward
  split
  · unfold forwardTypeAlias
    split
    · exact grounds_pure trivial
    · rename_i name hname
      split
      · exact grounds_pure trivial
      · rename_i target htarget
        refine addForwards_grounds _ s fun pair hpair symbol hsymbol => ?_
        obtain ⟨numbered, hnumbered, rfl⟩ := List.mem_map.mp hpair
        exact ⟨declaration, name, numbered.1, symbol, hkind, hname, htarget,
          List.fst_mem_of_mem_zipIdx hnumbered, hsymbol, rfl⟩
  · exact grounds_pure trivial

/-! ### Export paths -/

section ExportPath

variable {kind : Option LocationKind} {symbol : SymbolRef}

/-- By cases of the symbol: an export path is that of its parent, or of what it is forwarded to. -/
theorem deriveExportPath_grounds {ask : SymbolRef → StateM Symbols ExportAnswer}
    (hask : ∀ other t, Grounds p (ask other) t fun _ => True) :
    Grounds p (deriveExportPath p kind ask symbol) s fun _ => True := by
  unfold deriveExportPath
  split
  · exact grounds_pure trivial
  · refine grounds_get ?_
    dsimp only
    split
    · split
      · exact grounds_pure trivial
      · split
        · exact grounds_pure trivial
        · exact (hask _ _).bind fun _ _ _ => grounds_pure trivial
    · refine (hask _ _).bind fun above t _ => ?_
      split
      · exact grounds_pure trivial
      · split
        · exact grounds_pure trivial
        · split
          · exact grounds_pure trivial
          · exact grounds_pure trivial

/-- By induction on the depth: asking for an export path asserts nothing. -/
theorem exportPathWithin_grounds (fuel : Nat) : ∀ (symbol : SymbolRef) (s : Symbols),
    Grounds p (exportPathWithin p kind fuel symbol) s fun _ => True := by
  induction fuel with
  | zero => exact fun _ _ => grounds_pure trivial
  | succ fuel ih =>
      intro symbol s
      refine grounds_get ?_
      split
      · exact grounds_pure trivial
      · refine (deriveExportPath_grounds ih).bind fun answer t _ => ?_
        dsimp only
        split
        · exact grounds_pure trivial
        · exact (grounds_modify rfl rfl fun hs => hs).bind fun _ _ _ => grounds_pure trivial

theorem exportPath_grounds : Grounds p (exportPath p symbol kind) s fun _ => True :=
  (exportPathWithin_grounds _ symbol s).bind fun _ _ _ => grounds_pure trivial

end ExportPath

/-! ### Supertypes and their members -/

/-- The direct bases are those of a symbol with the key. -/
theorem baseSymbolsOf_grounds {symbol : SymbolRef} : Grounds p (baseSymbolsOf p symbol) s
    fun bases => ∃ other, p.key other = p.key symbol ∧ p.directBases other = bases := by
  refine grounds_get ?_
  split
  · rename_i bases hbases
    exact fun hs => ⟨hs, hs.bases _ bases hbases⟩
  · refine fun hs => ⟨⟨fun key bases hkey => ?_, hs.members, hs.overrides⟩, symbol, rfl, rfl⟩
    change (s.baseSymbols.insert (p.key symbol) (p.directBases symbol)).get? key = _ at hkey
    rw [Table.get?_insert] at hkey
    split at hkey
    · rename_i heq
      exact ⟨symbol, heq.symm, Option.some.inj hkey⟩
    · exact hs.bases key bases hkey

/-- Members that are overridden may be kept. -/
theorem keepBaseMembers_grounds {key : SymbolKey} {members : Option (List SymbolRef)}
    (h : ∀ member ∈ members.getD [], p.Overridden name key member) :
    Grounds p (keepBaseMembers key name members) s fun _ => True := by
  refine fun hs => ⟨⟨hs.bases, fun other name' members' hmembers => ?_, hs.overrides⟩, trivial⟩
  change (s.baseMembers.insert (key, name) members).get? (other, name') = _ at hmembers
  rw [Table.get?_insert] at hmembers
  split at hmembers
  · rename_i heq
    cases heq
    cases hmembers
    exact h
  · exact hs.members other name' members' hmembers

section Along

variable {ask : SymbolRef → StateM Symbols (Option (List SymbolRef))} {symbol : SymbolRef}

/-- Members are found in bases of a symbol with the key, or along their supertypes. -/
theorem membersAlong_grounds (hask : ∀ base t, Grounds p (ask base) t fun members =>
      ∀ member ∈ members.getD [], p.Overridden name (p.key base) member) (bases : List SymbolRef)
    (hbases : ∀ base ∈ bases, base ∈ (p.directBases symbol).getD []) :
    Grounds p (membersAlong p name ask bases) s fun members =>
      ∀ member ∈ members, p.Overridden name (p.key symbol) member := by
  induction bases generalizing s with
  | nil => exact grounds_pure nofun
  | cons base bases ih =>
      have hrest {here : List SymbolRef} (t : Symbols)
          (hhere : ∀ member ∈ here, p.Overridden name (p.key symbol) member) :
          Grounds p (do return here ++ (← membersAlong p name ask bases)) t fun members =>
            ∀ member ∈ members, p.Overridden name (p.key symbol) member := by
        refine (ih fun other hother => hbases other (List.mem_cons_of_mem _ hother)).bind
          fun members _ hmembers => grounds_pure fun member hmember => ?_
        exact (List.mem_append.mp hmember).elim (hhere member) (hmembers member)
      unfold membersAlong
      cases hnamed : p.memberNamed base name with
      | some member =>
          refine hrest s fun other hother => ?_
          rw [List.mem_singleton.mp hother]
          exact .here (hbases base List.mem_cons_self) hnamed
      | none =>
          refine (hask base s).bind fun members t hmembers => hrest t fun member hmember => ?_
          exact .above (hbases base List.mem_cons_self) hnamed (hmembers member hmember)

end Along

/-- What is found in the bases of a symbol is a member along its supertypes. -/
theorem searchBases_grounds {ask : SymbolRef → StateM Symbols (Option (List SymbolRef))}
    {symbol : SymbolRef} (hask : ∀ base s, Grounds p (ask base) s fun members =>
      ∀ member ∈ members.getD [], p.Overridden name (p.key base) member) :
    Grounds p (searchBases p name ask symbol) s fun found =>
      ∀ member ∈ found, p.Overridden name (p.key symbol) member := by
  refine baseSymbolsOf_grounds.bind fun bases t hbases => ?_
  obtain ⟨other, hkey, hbases⟩ := hbases
  cases bases with
  | none => exact grounds_pure nofun
  | some bases =>
      rw [← hkey]
      refine membersAlong_grounds hask bases fun base hbase => ?_
      rw [hbases]
      exact hbase

/-- What was found is kept, unless it is nothing. -/
theorem settleMembers_grounds {symbol : SymbolRef} {found : List SymbolRef}
    (hfound : ∀ member ∈ found, p.Overridden name (p.key symbol) member) :
    Grounds p (settleMembers p symbol name found) s fun members =>
      ∀ member ∈ members.getD [], p.Overridden name (p.key symbol) member := by
  have hmembers : ∀ member ∈ (if found.isEmpty then none else some found).getD [],
      p.Overridden name (p.key symbol) member := by
    split
    · exact nofun
    · exact hfound
  exact (keepBaseMembers_grounds hmembers).bind fun _ _ _ => grounds_pure hmembers

/-- By induction on the depth: what is found is overridden by the members of the symbol. -/
theorem findBaseMembersWithin_grounds (fuel : Nat) : ∀ (symbol : SymbolRef) (s : Symbols),
    Grounds p (findBaseMembersWithin p name fuel symbol) s fun members =>
      ∀ member ∈ members.getD [], p.Overridden name (p.key symbol) member := by
  induction fuel with
  | zero => exact fun _ _ => grounds_pure nofun
  | succ fuel ih =>
      intro symbol s
      refine grounds_get ?_
      split
      · rename_i members hmembers
        exact fun hs => ⟨hs, hs.members _ name members hmembers⟩
      · have hnone : ∀ member ∈ (none : Option (List SymbolRef)).getD [],
            p.Overridden name (p.key symbol) member := nofun
        exact (keepBaseMembers_grounds hnone).bind fun _ _ _ =>
          (searchBases_grounds ih).bind fun _ _ hfound => settleMembers_grounds hfound

/-- **Every member that is found is along the supertypes** of a symbol with the key. -/
theorem findBaseMembers_grounds {symbol : SymbolRef} :
    Grounds p (findBaseMembers p symbol name) s fun members =>
      ∀ member ∈ members.getD [], p.Overridden name (p.key symbol) member :=
  findBaseMembersWithin_grounds _ symbol s

end Symbols

end SymbolGraph
