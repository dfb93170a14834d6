import SymbolGraph.Proofs.Run.Guarding
import SymbolGraph.Proofs.Run.Identities

/-!
# Proofs — Run — what a failure leaves behind

A record is stored before it is begun, and begun before anything is emitted for it.  A failure before
it is stored gives up the reservation of its key, and nothing is left.  A failure later finds no
reservation to give up: the record stays, for whoever asks next, and if the sink refused its result
set it stays without one.

* `Store.Begun`, `Store.Remains`: what a record that was made, or not quite made, is left as.
* `Session.survey`, `Session.conclude`: the making of a record, before and after it is stored.
* `Session.resolve_leaves`: how looking for an unknown record ends.
* `Session.RolledBack`: nothing is left of a record, and the next one is made from the beginning.
* `Run.resolve_rolledBack`: when a failure leaves nothing, and what it leaves otherwise.
* `Run.not_forall_resolve_rolledBack`: it does not always leave nothing.
-/

namespace SymbolGraph

open SymbolGraph.Action

namespace Store

variable {w : Setting} {s t : Store} {key : SymbolKey} {id : RecordId}

/-- The record of a key, with a result set. -/
structure Begun (s : Store) (key : SymbolKey) (id : RecordId) : Prop where
  live : s.cache.get? key = some (.live id)
  hub  : s.hub? id ≠ none

/-- The record of a key whose making has failed after it was stored.  If it has no result set, that
was what failed. -/
structure Remains (s : Store) (key : SymbolKey) (id : RecordId) (fault : Fault) : Prop where
  live     : s.cache.get? key = some (.live id)
  ordinary : fault.IsOrdinary
  hub      : s.hub? id = none → Graph.OfSink fault

theorem Retains.hub? (h : s.Retains t) (id : RecordId) : t.hub? id = s.hub? id := by
  have hsplit (records : Array Record) : records[id.index]?.bind Record.resultSet
      = (records[id.index]?.map Record.mark).bind Prod.snd := by
    cases records[id.index]? <;> rfl
  rw [Store.hub?, Store.hub?, hsplit, hsplit, h.marks]

theorem Begun.retain (h : s.Begun key id) (hst : s.Retains t) : t.Begun key id :=
  ⟨hst.cache ▸ h.live, hst.hub? id ▸ h.hub⟩

theorem Begun.remains (h : s.Begun key id) {fault : Fault} (hfault : fault.IsOrdinary) :
    s.Remains key id fault :=
  ⟨h.live, hfault, fun hnone => absurd hnone h.hub⟩

theorem lookup_unknown (h : s.cache.get? key = none) : lookup key s = .ok none s := by
  simp [lookup, get_bind_run, pure_run, h]

theorem lookup_live (h : s.cache.get? key = some (.live id)) : lookup key s = .ok (some id) s := by
  simp [lookup, get_bind_run, pure_run, h]

/-- A record that is not yet open gets its result set, unless the sink refuses it. -/
theorem begin_hub {l : Ledger} (h : l.record.state = .unopened) :
    Ensures Ledger.begin l (fun _ l' => l'.record.resultSet ≠ none)
      fun fault _ => Graph.OfSink fault := by
  refine ensures_bind.mpr (ensures_get.mpr ?_)
  simp only [h, ne_eq, not_true, if_false]
  refine ensures_bind.mpr (ensures_onPart.mpr ((Graph.vertex_labels .resultSet l.graph).mono
    (fun hub g _ => ?_) fun _ _ hfault => hfault))
  exact ensures_bind.mpr (ensures_modify.mpr (ensures_pure.mpr (Option.some_ne_none hub)))

/-- The record that is stored has a result set, unless the sink refuses it. -/
theorem insert_hub {fresh : Record} (hnew : fresh.state = .unopened) :
    Ensures (insert w fresh) s (fun id t => t.hub? id ≠ none)
      fun fault t => t.hub? ⟨s.records.size⟩ = none → Graph.OfSink fault := by
  have hplace : (s.pushed fresh).records[s.records.size]? = some fresh :=
    getElem?_pushed.mpr (.inr ⟨rfl, rfl⟩)
  refine ensures_bind.mpr (ensures_get.mpr (ensures_bind.mpr (ensures_modify.mpr ?_)))
  refine ensures_bind.mpr (ensures_bind.mpr ((ensures_onRecord hplace).mpr ((begin_hub hnew).mono
    (fun hub l hl => ?_) fun _ _ hfault _ => hfault)))
  have hopen : (putBack (s.pushed fresh) ⟨s.records.size⟩ l).hub? ⟨s.records.size⟩ ≠ none := by
    have hself : (putBack (s.pushed fresh) ⟨s.records.size⟩ l).records[
        (⟨s.records.size⟩ : RecordId).index]? = some l.record := getElem?_putBack_self hplace
    simpa [Store.hub?, hself] using hl
  -- What comes after the result set leaves it where it is.
  refine (tie_retains _ hub _).mono (fun _ t ht => ensures_pure.mpr ?_) fun _ t ht hnone => ?_
  · rw [ht.hub?]
    exact hopen
  · exact absurd ((ht.hub? _).symm.trans hnone) hopen

/-- **A new record is stored and begun.**  Once it is stored it stays. -/
theorem insert_leaves (hs : s.Sturdy) {kind : RecordKind} {scope : Option NodeId}
    (hlinks : ∀ ids, kind.passesTo = some ids → ∀ id ∈ ids, id.index < s.records.size) :
    Ensures (insert w { key, kind, scope }) s
      (fun id t => (id = ⟨s.records.size⟩ ∧ (s.pushed { key, kind, scope }).Steadies t) ∧
        t.Begun key id)
      fun fault t => t.Remains key ⟨s.records.size⟩ fault := by
  have hlive {t : Store} (ht : (s.pushed { key, kind, scope }).Steadies t) :
      t.cache.get? key = some (.live ⟨s.records.size⟩) := by
    rw [ht.cache]
    exact (Table.get?_insert _ _ _ _).trans (if_pos rfl)
  refine ((insert_braces hs hlinks).and (insert_hub rfl)).mono (fun id t ht => ?_)
    fun fault t hfault => ?_
  · obtain ⟨⟨rfl, hsteadies⟩, hhub⟩ := ht
    exact ⟨⟨rfl, hsteadies⟩, hlive hsteadies, hhub⟩
  · obtain ⟨⟨hordinary, hsteadies⟩, hhub⟩ := hfault
    exact ⟨hlive hsteadies, hordinary, hhub⟩

end Store

namespace Session

variable {w : Setting} {s t : Session} {symbol : SymbolRef} {location : Option NodeId} {fuel : Nat}
  {id : RecordId}

/-! ### Making a record -/

/-- What is found out about a symbol before its record is stored: where it is declared, its export
path, and which records it needs. -/
def survey (w : Setting) (find : Resolver) (symbol : SymbolRef) (location : Option NodeId) :
    Running (List NodeId × Option String × RecordKind) := do
  let p := w.program
  let resolution := p.resolution symbol location
  let declarations ← Action.ofExcept (resolution.declarations p symbol location)
  let exportPath ← Symbols.exportPath p symbol (p.locationKind (p.filesOf declarations))
  let kind ← recordKind w find resolution symbol location declarations
  return (declarations, exportPath, kind)

/-- Stores the record of a symbol, and announces it. -/
def conclude (w : Setting) (symbol : SymbolRef) (location : Option NodeId) :
    List NodeId × Option String × RecordKind → Running RecordId
  | (declarations, exportPath, kind) => do
      let scope := if !kind.acceptsDefinitions || exportPath.isSome then none
        else scopeOf w.program symbol declarations
      establish w (w.program.resolution symbol location) symbol declarations kind scope exportPath

/-- A record is made by a survey and what is concluded from it. -/
theorem create_eq_survey (find : Resolver) :
    create w find symbol location = survey w find symbol location >>= conclude w symbol location := by
  simp only [survey, bind_assoc, pure_bind]
  rfl

/-- A survey leaves what is reserved, however it ends. -/
theorem survey_ensures {find : Resolver} (h : find.IsExplained w.program fuel)
    (hs : s.Sturdy w.program) (hfree : s.unreserved w.program < fuel) :
    Ensures (survey w find symbol location) s
      (fun found t => Abides w.program s t ∧
        t.Fits (w.program.resolution symbol location) found.2.2 ∧
        (w.program.resolution symbol location).declarations w.program symbol location
          = .ok found.1)
      fun _ t => Abides w.program s t := by
  unfold survey
  dsimp only
  rw [ensures_bind]
  cases hdeclarations :
    (w.program.resolution symbol location).declarations w.program symbol location with
  | error fault => exact ensures_throw.mpr (.refl hs)
  | ok declarations =>
      refine ensures_ofExcept_ok.mpr (ensures_bind.mpr
        ((symbols_braces Symbols.exportPath_grounds
          (Symbols.exportPath_asks.mono fun _ _ _ => trivial) hs).mono
          (fun path t ht => ?_) fun _ _ hfault => hfault.2))
      refine ensures_bind.mpr (((recordKind_makes h).after ⟨hs, hfree⟩ ht.1).mono
        (fun kind u hu => ?_) fun _ _ hfault => hfault.1)
      exact ensures_pure.mpr ⟨hu.1, hu.2, rfl⟩

/-- Once a record is stored it stays, with a result set unless the sink refuses it. -/
theorem conclude_leaves {declarations : List NodeId} {path : Option String} {kind : RecordKind}
    (hs : s.Sturdy w.program) (hfits : s.Fits (w.program.resolution symbol location) kind)
    (hdeclarations : (w.program.resolution symbol location).declarations w.program symbol location
      = .ok declarations) :
    Ensures (conclude w symbol location (declarations, path, kind)) s
      (fun id t => s.store.records.size ≤ id.index ∧ t.store.Begun (w.program.key symbol) id)
      fun fault t => ∃ id, t.store.Remains (w.program.key symbol) id fault := by
  have hlocal (node : NodeId) (hnode : (if !kind.acceptsDefinitions || path.isSome then none
      else scopeOf w.program symbol declarations) = some node) :
      ∃ other, w.program.key other = w.program.key symbol ∧
        scopeOf w.program other (w.program.declarations other) = some node :=
    ⟨symbol, rfl, scopeOf_declarations hdeclarations hfits.met hnode⟩
  unfold conclude
  dsimp only
  refine ensures_bind.mpr (ensures_onPart.mpr ((Store.insert_leaves hs.store
    hfits.links).mono (fun id store hstore => ?_) fun fault store hstore => ⟨_, hstore⟩))
  obtain ⟨⟨rfl, hsteadies⟩, hbegun⟩ := hstore
  have hsturdy := (hs.push hlocal hsteadies).1.sturdy
  refine ensures_bind.mpr (((announce_braces hsturdy).and (announce_retains _ _ _ _ _ _)).mono
    (fun _ v hv => ?_) fun fault v hfault => ?_)
  · exact ensures_pure.mpr ⟨Nat.le_refl _, hbegun.retain hv.2⟩
  · obtain ⟨⟨hordinary, -⟩, hretains⟩ := hfault
    exact ⟨_, (hbegun.retain hretains).remains hordinary⟩

/-- The survey of a symbol whose key is reserved for it succeeds. -/
def Surveys (w : Setting) (s : Session) (symbol : SymbolRef) (location : Option NodeId) : Prop :=
  ∃ found t, survey w (resolveWithin w (w.program.symbols.size + 2)) symbol location
    (s.reserving (w.program.key symbol)) = .ok found t

/-- **How looking for an unknown record ends**: a new one is made; or its survey failed, and its key is
as unknown as before; or it was stored, and stays. -/
theorem resolve_leaves (hs : s.Sturdy w.program)
    (hkey : s.store.cache.get? (w.program.key symbol) = none) :
    Ensures (resolve w symbol location) s
      (fun id t => s.store.records.size ≤ id.index ∧ t.store.Begun (w.program.key symbol) id)
      fun fault t =>
        (¬ s.Surveys w symbol location ∧ t.store.cache.get? (w.program.key symbol) = none) ∨
        (s.Surveys w symbol location ∧
          ∃ id, t.store.Remains (w.program.key symbol) id fault) := by
  have hfree : s.unreserved w.program < w.program.symbols.size + 2 + 1 := by
    have hle := s.unreserved_le w.program
    omega
  obtain ⟨hreserved, -, hless⟩ := reserving_ready hkey hfree
  have hsurvey : Ensures (survey w (resolveWithin w (w.program.symbols.size + 2)) symbol location)
      (s.reserving (w.program.key symbol)) _ _ :=
    survey_ensures (resolveWithin_explained _) (hs.reserve _) hless
  refine ensures_bind.mpr (lookup_slots (fun _ => ?_) (fun id hslot => ?_) (fun hslot => ?_)
    fun hslot => ?_)
  · refine ensures_bind.mpr (ensures_onPart.mpr (ensures_modify.mpr (ensures_onFailure.mpr ?_)))
    rw [create_eq_survey, ensures_bind]
    refine (hsurvey.and ensures_self).mono (fun found t ht => ?_) fun fault t hfault => ?_
    · obtain ⟨⟨habides, hfits, hdeclarations⟩, hrun⟩ := ht
      refine (conclude_leaves habides.sturdy hfits hdeclarations).mono
        (fun id u hu => ⟨habides.size.trans hu.1, hu.2⟩)
        -- After the survey the record is live, and `abandon` leaves a live entry alone.
        fun fault u hfault => ensures_onPart.mpr (ensures_modify.mpr (.inr ⟨⟨found, t, hrun⟩, ?_⟩))
      obtain ⟨id, hremains⟩ := hfault
      refine ⟨id, ?_⟩
      rw [if_neg (by simp [hremains.live])]
      exact hremains
    · obtain ⟨habides, hrun⟩ := hfault
      -- The survey failed before anything was inserted, so the reservation is all there is to take
      -- back.
      refine ensures_onPart.mpr (ensures_modify.mpr (.inl ⟨?_, ?_⟩))
      · rintro ⟨found, u, hok⟩
        cases hrun.symm.trans hok
      · have hresolving := (habides.resolving _ id).mpr hreserved
        simp [hresolving, Table.get?_erase]
  · simp [hkey] at hslot
  · simp [hkey] at hslot
  · simp [hkey] at hslot

/-- Nothing is left of the record of a symbol: its key is unknown, and when the record is looked for it
is made anew, with a result set. -/
structure RolledBack (w : Setting) (s : Session) (symbol : SymbolRef) : Prop where
  unknown : Store.lookup (w.program.key symbol) s.store = .ok none s.store
  anew    : ∀ location id t, resolve w symbol location s = .ok id t →
    s.store.records.size ≤ id.index ∧ t.store.Begun (w.program.key symbol) id

theorem Sturdy.rolledBack (hs : s.Sturdy w.program)
    (hkey : s.store.cache.get? (w.program.key symbol) = none) : s.RolledBack w symbol :=
  ⟨Store.lookup_unknown hkey, fun _ _ _ hrun => (resolve_leaves hs hkey).of_ok hrun⟩

/-- A record that is known is found, and nothing else happens. -/
theorem resolve_live (hkey : s.store.cache.get? (w.program.key symbol) = some (.live id)) :
    resolve w symbol location s = .ok id s := by
  have hfound : Ensures (resolve w symbol location) s (fun found t => found = id ∧ t = s)
      fun _ _ => False := by
    refine ensures_bind.mpr (lookup_slots (fun hslot => ?_) (fun found hslot => ?_)
      (fun hslot => ?_) fun hslot => ?_)
    all_goals cases hkey.symm.trans hslot
    exact ensures_pure.mpr ⟨rfl, rfl⟩
  cases hrun : resolve w symbol location s with
  | ok found t =>
      obtain ⟨rfl, rfl⟩ := hfound.of_ok hrun
      rfl
  | error fault t => exact (hfound.of_error hrun).elim

end Session

namespace Run

open SymbolGraph.Session

variable {w : Setting} {sink : Sink} {s : Session}

/-- **When a failure leaves nothing behind.**  Over any sink, whatever calls were made and whichever
failed, also in the middle of a call: when an unknown record is looked for and that fails, nothing of
it is left exactly if its survey failed, as it does whenever the fault is not one that can be met at
any time.  Otherwise there is a record, which is found from then on, and if it has no result set then
because the sink refused an element. -/
theorem resolve_rolledBack (hs : Reaches w sink s) {symbol : SymbolRef}
    {location : Option NodeId} {fault : Fault} {t : Session}
    (hkey : s.store.cache.get? (w.program.key symbol) = none)
    (hrun : resolve w symbol location s = .error fault t) :
    (t.RolledBack w symbol ↔ ¬ s.Surveys w symbol location) ∧
    (¬ fault.IsOrdinary → t.RolledBack w symbol) ∧
    (¬ t.RolledBack w symbol → ∃ id, (∀ location', resolve w symbol location' t = .ok id t) ∧
      (t.store.hub? id = none → ∃ reason, fault = .sink reason)) := by
  have hsturdy : t.Sturdy w.program :=
    ((resolve_explained hs.sturdy symbol location).of_error hrun).1.sturdy
  rcases (resolve_leaves hs.sturdy hkey).of_error hrun with ⟨hsurvey, hnone⟩ | ⟨hsurvey, hremains⟩
  · have hback : t.RolledBack w symbol := hsturdy.rolledBack hnone
    exact ⟨iff_of_true hback hsurvey, fun _ => hback, fun hnot => absurd hback hnot⟩
  · obtain ⟨id, hremains⟩ := hremains
    have hnot : ¬ t.RolledBack w symbol := fun hback => by
      cases hback.unknown.symm.trans (Store.lookup_live hremains.live)
    exact ⟨iff_of_false hnot fun hfails => hfails hsurvey,
      fun hfault => absurd hremains.ordinary hfault,
      fun _ => ⟨id, fun _ => resolve_live hremains.live, hremains.hub⟩⟩

/-- The sink refuses the result set of the variable, and what that leaves is not the alias's: the alias
is looked for again as if for the first time. -/
theorem importsVariable_rolledBack : ∃ s g fault t,
    start importsVariable (Graph.ofSink (.memory refusesThird 0 #[])) = .ok s g ∧
    resolve importsVariable ⟨0⟩ none s = .error fault t ∧ t.RolledBack importsVariable ⟨0⟩ := by
  have hfacts : (outcome? (start importsVariable) (Graph.ofSink (.memory refusesThird 0 #[]))).any
      (fun first =>
        first.1.store.cache.get? (importsVariable.program.key ⟨0⟩) = none ∧
        (outcome? (resolve importsVariable ⟨0⟩ none) first.1).isNone ∧
        (outcome? (survey importsVariable
          (resolveWithin importsVariable (importsVariable.program.symbols.size + 2)) ⟨0⟩ none)
          (first.1.reserving (importsVariable.program.key ⟨0⟩))).isNone) = true := by
    decide +kernel
  obtain ⟨⟨s, g⟩, hfirst, hfacts⟩ := (Option.any_eq_true _ _).mp hfacts
  obtain ⟨hkey, hfails, hsurvey⟩ := of_decide_eq_true hfacts
  have hstart := outcome?_eq_some.mp hfirst
  cases hrun : resolve importsVariable ⟨0⟩ none s with
  | ok id t => simp [outcome?, hrun] at hfails
  | error fault t =>
      refine ⟨s, g, fault, t, hstart, hrun, ?_⟩
      refine (resolve_rolledBack (.start hstart) hkey hrun).1.mpr ?_
      rintro ⟨found, u, hok⟩
      simp [outcome?, hok] at hsurvey

/-- **A failure may leave a record behind.**  The sink refuses the result set of a variable; from then
on its record is known. -/
theorem not_forall_resolve_rolledBack :
    ¬ ∀ (w : Setting) (sink : Sink) (s t : Session) (symbol : SymbolRef) (location : Option NodeId)
      (fault : Fault), (∃ steps, Program.ofSteps steps = .ok w.program) → Reaches w sink s →
      s.store.cache.get? (w.program.key symbol) = none →
      resolve w symbol location s = .error fault t → t.RolledBack w symbol := by
  intro hall
  have hfacts : (outcome? (start declaredTwice) (Graph.ofSink (.memory refusesThird 0 #[]))).any
      (fun first =>
        first.1.store.cache.get? (declaredTwice.program.key ⟨0⟩) = none ∧
        (outcome? (resolve declaredTwice ⟨0⟩ none) first.1).isNone ∧
        (outcome? (Store.lookup (declaredTwice.program.key ⟨0⟩))
          (final (resolve declaredTwice ⟨0⟩ none first.1)).store).any (·.1.isSome)) = true := by
    decide +kernel
  obtain ⟨⟨s, g⟩, hfirst, hfacts⟩ := (Option.any_eq_true _ _).mp hfacts
  obtain ⟨hkey, hfails, hlookup⟩ := of_decide_eq_true hfacts
  cases hrun : resolve declaredTwice ⟨0⟩ none s with
  | ok id t => simp [outcome?, hrun] at hfails
  | error fault t =>
      have hback := hall declaredTwice _ s t ⟨0⟩ none fault (plain_built (by decide +kernel))
        (.start (outcome?_eq_some.mp hfirst)) hkey hrun
      simp [hrun, final, outcome?, hback.unknown] at hlookup

end Run

end SymbolGraph
