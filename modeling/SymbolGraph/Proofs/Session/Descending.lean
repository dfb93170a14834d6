import SymbolGraph.Proofs.Session.Explaining
import SymbolGraph.Proofs.Symbol.Terminating

/-!
# Proofs — Session — the search for a record ends by itself

Looking for the record of a symbol is a recursion through three kinds of needs, and where a method
overrides one that is being made, the search swallows the fault and goes on; by then other keys that
were reserved are free again.  What gets smaller is the set of keys that are not reserved, along the
recursion and not over time: whatever was looked for before, a level finds all the keys reserved that
the levels above it have reserved.

* `Session.Coincide`: two actions that do the same, and leave the same keys reserved.
* `Session.seek_coincides`: one level of the search only asks the level below once it has reserved a
  key.
* `Session.resolve_ends`: so the search ends by itself.
-/

namespace SymbolGraph.Session

open SymbolGraph.Action SymbolGraph.Discipline

variable {α β : Type} {w : Setting} {p : Program} {fuel : Nat} {s : Session}

/-! ### Actions that do the same -/

section Coincide

variable {act act' : Running α} {f f' : α → Running β}

/-- From a sturdy session with few enough keys that are not reserved, two actions do the same, and
leave the same keys reserved. -/
def Coincide (p : Program) (fuel : Nat) (act act' : Running α) (s : Session) : Prop :=
  s.Sturdy p → s.unreserved p < fuel →
    act s = act' s ∧ Ensures act s (fun _ t => Abides p s t) fun _ t => Abides p s t

theorem Coincide.bind (h : Coincide p fuel act act' s)
    (hf : ∀ a t, Coincide p fuel (f a) (f' a) t) : Coincide p fuel (act >>= f) (act' >>= f') s := by
  intro hs hfree
  obtain ⟨hsame, hends⟩ := h hs hfree
  have hrest (a : α) (t : Session) (ht : Abides p s t) :=
    hf a t ht.sturdy (by rw [ht.unreserved]; exact hfree)
  constructor
  · exact bind_eq_of hsame (hends.mono (fun a t ht => (hrest a t ht).1) fun _ _ _ => trivial)
  · exact ensures_bind.mpr (hends.mono (fun a t ht => (hrest a t ht).2.mono
      (fun _ _ hu => ht.trans hu) fun _ _ hu => ht.trans hu) fun _ _ ht => ht)

theorem Coincide.attempt (h : Coincide p fuel act act' s) :
    Coincide p fuel (attempt act) (attempt act') s := by
  intro hs hfree
  obtain ⟨hsame, hends⟩ := h hs hfree
  exact ⟨attempt_eq_of hsame, ensures_attempt.mpr hends⟩

theorem Braces.coincide {post : α → Session → Prop} (h : Braces p act s post) :
    Coincide p fuel act act s :=
  fun hs _ => ⟨rfl, Ensures.mono (h hs) (fun _ _ ht => ht.1) fun _ _ hfault => hfault.2⟩

theorem coincide_pure {a : α} : Coincide p fuel (pure a) (pure a) s :=
  fun hs _ => ⟨rfl, ensures_pure.mpr (.refl hs)⟩

theorem coincide_throw {fault : Fault} :
    Coincide p fuel (throw fault : Running α) (throw fault) s :=
  fun hs _ => ⟨rfl, ensures_throw.mpr (.refl hs)⟩

end Coincide

/-! ### What a record needs -/

variable {resolve resolve' : Resolver} {symbol : SymbolRef} {location : Option NodeId}

theorem resolveBases_coincide
    (h : ∀ base t, Coincide p fuel (resolve base none) (resolve' base none) t) :
    ∀ (bases : List SymbolRef) (s : Session),
      Coincide p fuel (resolveBases resolve bases) (resolveBases resolve' bases) s
  | [], _ => coincide_pure
  | base :: bases, s => by
      refine (h base s).attempt.bind fun result t => ?_
      cases result with
      | ok id => exact (resolveBases_coincide h bases t).bind fun _ _ => coincide_pure
      | error fault =>
          cases fault with
          | cyclicResolution => exact resolveBases_coincide h bases t
          | _ => exact coincide_throw

theorem resolveProperties_coincide {name : String} {node : NodeId}
    (h : ∀ property t,
      Coincide p fuel (resolve property (some node)) (resolve' property (some node)) t) :
    ∀ (types : List TypeRef) (known : List RecordId) (s : Session),
      Coincide p fuel (resolveProperties w resolve name node known types)
        (resolveProperties w resolve' name node known types) s
  | [], _, _ => coincide_pure
  | type :: types, known, s => by
      unfold resolveProperties
      cases w.program.propertyOf type name with
      | none => exact resolveProperties_coincide h types known s
      | some property =>
          exact (h property s).bind fun _ t => resolveProperties_coincide h types _ t

theorem methodKind_coincide
    (h : ∀ base t, Coincide w.program fuel (resolve base none) (resolve' base none) t)
    (site : Option NodeId) (bases : List SymbolRef) :
    Coincide w.program fuel (methodKind w resolve symbol site bases)
      (methodKind w resolve' symbol site bases) s := by
  cases site with
  | none => exact coincide_pure
  | some node => exact (resolveBases_coincide h _ s).bind fun _ _ => coincide_pure

/-- The kind of a record is the same if what it passes on to is. -/
theorem recordKind_coincide
    (h : ∀ symbol location t,
      Coincide w.program fuel (resolve symbol location) (resolve' symbol location) t)
    {resolution : Resolution} {declarations : List NodeId} :
    Coincide w.program fuel (recordKind w resolve resolution symbol location declarations)
      (recordKind w resolve' resolution symbol location declarations) s := by
  have hbases (base : SymbolRef) (t : Session) := h base none t
  unfold recordKind
  dsimp only
  cases resolution with
  | standard => exact coincide_pure
  | typeAlias => exact coincide_pure
  | transient => exact coincide_pure
  | ofAlias =>
      dsimp only
      cases w.program.aliasedSymbol symbol with
      | none => exact coincide_pure
      | some target => exact (h target none s).bind fun _ _ => coincide_pure
  | method =>
      dsimp only
      cases w.program.parentSymbol symbol with
      | none => exact methodKind_coincide hbases _ []
      | some parent =>
          exact (symbols_braces Symbols.findBaseMembers_grounds
            Symbols.findBaseMembers_asks).coincide.bind fun found t => methodKind_coincide hbases _ _
  | composite =>
      dsimp only
      cases location with
      | none => exact coincide_pure
      | some node =>
          exact (resolveProperties_coincide (fun property t => h property (some node) t) _ []
            s).bind fun _ _ => coincide_pure

/-- A record is made in the same way if what it needs is found in the same way. -/
theorem create_coincides
    (h : ∀ symbol location t,
      Coincide w.program fuel (resolve symbol location) (resolve' symbol location) t)
    (hs : s.Sturdy w.program) (hfree : s.unreserved w.program < fuel) :
    create w resolve symbol location s = create w resolve' symbol location s := by
  unfold create
  dsimp only
  cases (w.program.resolution symbol location).declarations w.program symbol location with
  | error fault => rfl
  | ok declarations =>
      refine bind_eq_of rfl (ensures_ofExcept_ok.mpr (bind_eq_of rfl ?_))
      refine ((symbols_braces Symbols.exportPath_grounds
        (Symbols.exportPath_asks.mono fun _ _ _ => trivial)) hs).mono (fun path t ht => ?_)
        fun _ _ _ => trivial
      -- Once the kind of the record is known, nothing else is looked for.
      refine bind_eq_of (recordKind_coincide h ht.1.sturdy ?_).1
        ((ensures_true _ _).mono (fun _ _ _ => rfl) fun _ _ _ => trivial)
      rw [ht.1.unreserved]
      exact hfree

/-! ### The search -/

variable {find find' : Request → Running RecordId} {x : Request}

/-- **One level of the search** only asks the level below once it has reserved a key, so that fewer
are left. -/
theorem seek_coincides (h : ∀ x t, Coincide w.program fuel (find x) (find' x) t)
    (hs : s.Sturdy w.program) (hfree : s.unreserved w.program < fuel + 1) :
    seek w find x s = seek w find' x s := by
  refine bind_eq_of rfl (lookup_slots (fun hslot => ?_) (fun id _ => rfl) (fun _ => trivial)
    fun _ => trivial)
  obtain ⟨-, -, hless⟩ := reserving_ready hslot hfree
  refine bind_eq_of rfl (ensures_onPart.mpr (ensures_modify.mpr ?_))
  refine bind_eq_of (attempt_eq_of ?_) ((ensures_true _ _).mono (fun _ _ _ => rfl)
    fun _ _ _ => trivial)
  exact create_coincides (fun symbol location t => h ⟨symbol, location⟩ t) (hs.reserve _) hless

theorem resolveWithin_eq_iterate (fuel : Nat) (x : Request) :
    resolveWithin w fuel x.symbol x.location
      = (seek w)^[fuel] (fun _ => throw .endlessChain) x := by
  induction fuel generalizing x with
  | zero => rfl
  | succ fuel ih =>
      rw [Function.iterate_succ_apply', ← funext ih]
      rfl

/-- **The search for a record ends**, whatever the records need. -/
theorem resolve_ends (hs : s.Sturdy w.program) :
    EndsWithin (seek w) (w.program.symbols.size + 3) x s := by
  refine endsWithin_of (fun depth _ t => t.Sturdy w.program ∧ t.unreserved w.program < depth)
    (fun y t r => Ensures (fun _ => r) t (fun id u => Abides w.program t u ∧ u.Holds id)
      fun fault u => Abides w.program t u ∧ Explains w.program t y fault)
    (fun _ _ h => Nat.not_lt_zero _ h.2) (fun depth f f' ih y t ht => ?_) ⟨hs, ?_⟩
  · have hcoincide (y : Request) (t : Session) : Coincide w.program depth (f y) (f' y) t := by
      intro ht hfree
      obtain ⟨hsame, hends⟩ := ih y t ⟨ht, hfree⟩
      exact ⟨hsame, Ensures.mono hends (fun _ _ hu => hu.1) fun _ _ hu => hu.1⟩
    exact ⟨seek_coincides hcoincide ht.1 ht.2,
      seek_explained (fun y t ht hfree => (ih y t ⟨ht, hfree⟩).2) y t ht.1 ht.2⟩
  · have hle := s.unreserved_le w.program
    omega

end SymbolGraph.Session
