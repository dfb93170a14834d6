import SymbolGraph.Proofs.Run.Calls
import SymbolGraph.Proofs.Run.Walked
import SymbolGraph.Proofs.Session.Identity

/-!
# Proofs — Run — who is who, after any calls

A symbol has one record and one result set, whatever calls a run is driven by, in whatever order they
come, and whichever elements the sink refuses.

* `Session.after_tracks`: calls keep who is who.
* `Run.one_record`: no two records have one key, no key has two result sets, and resolving symbols
  with one key gives one record.
-/

namespace SymbolGraph

open SymbolGraph.Action

variable {faults : Nat → Option SinkFault} {w : Setting} {s : Session}

/-- A result set is that of a record with a key. -/
def Store.HubOf (s : Store) (key : SymbolKey) (hub : ElementId) : Prop :=
  ∃ (i : Nat) (r : Record), s.records[i]? = some r ∧ r.key = key ∧
    r.resultSet = some ⟨hub, .resultSet⟩

namespace Session

theorem Call.act_tracks (call : Call) : Stays (Tracking ∅) (call.act w) := by
  cases call with
  | resolve symbol location => exact (resolve_stays symbol location).discard
  | visitFile file => exact visitFile_tracks file
  | nodeProcessed node => exact store_tracks (Store.nodeProcessed_tracks node)
  | endDocument file => exact Retains.tracks (store_retains (Store.endDocument_retains file))
  | projectProcessed => exact Retains.tracks (store_retains Store.projectProcessed_retains)

theorem left_tracks {act : Running Unit} (h : Stays (Tracking ∅) act) (hs : s.store.Identified) :
    s.store.Tracks ∅ (left act s).store := by
  have hensures := ensures_of_tracking h hs
  unfold left
  split
  · rename_i hact
    exact hensures.of_ok hact
  · rename_i hact
    exact hensures.of_error hact

/-- Calls keep who is who, each of them made however those before it ended. -/
theorem after_tracks (calls : List Call) (hs : s.store.Identified) :
    s.store.Tracks ∅ (s.after w calls).store := by
  induction calls generalizing s with
  | nil => exact .refl hs
  | cons call calls ih =>
      have hcall := left_tracks (call.act_tracks (w := w)) hs
      exact hcall.trans (ih hcall.identified)

end Session

namespace Run

/-- At the start there are no records and no result sets. -/
theorem start_identified :
    Ensures (start w) (Graph.ofSink (.memory faults 0 #[])) (fun s _ => s.store.Identified)
      fun _ _ => True := by
  have hquiet : Stays Graph.Retains (Store.start w.projectRoot) :=
    (Graph.vertex_retains (by simp)).discard.bind fun _ =>
      (Graph.vertex_retains (by simp)).bind fun _ => stays_pure
  refine ensures_bind.mpr ((hquiet _).mono (fun project g hg => ?_) fun _ _ _ => trivial)
  refine ensures_bind.mpr (ensures_get.mpr (ensures_pure.mpr ⟨⟨?_, ?_, ?_⟩, fun hub hhub => ?_⟩))
  · simp
  · simp
  · simp
  · have hnone : hub ∈ hubsIn [] := hg.hubs ▸ hhub
    cases hnone

/-- **One record for each symbol.**  After any calls and any refusals of the sink, no two records
have one key, every result set that was delivered is that of a record, no key has two of them, and
resolving two symbols with one key, whatever happens in between, gives one record. -/
theorem one_record {g : Graph} (hstart : start w (Graph.ofSink (.memory faults 0 #[])) = .ok s g)
    (calls : List Session.Call) :
    (∀ (i j : Nat) (r r' : Record), (s.after w calls).store.records[i]? = some r →
      (s.after w calls).store.records[j]? = some r' → r.key = r'.key → i = j) ∧
    (∀ (k : Nat) (hub : ElementId),
      (s.after w calls).graph.elements[k]? = some (.vertex hub .resultSet) →
        ∃ key, (s.after w calls).store.HubOf key hub) ∧
    (∀ (key : SymbolKey) (k k' : Nat) (hub hub' : ElementId),
      (s.after w calls).graph.elements[k]? = some (.vertex hub .resultSet) →
      (s.after w calls).graph.elements[k']? = some (.vertex hub' .resultSet) →
      (s.after w calls).store.HubOf key hub → (s.after w calls).store.HubOf key hub' → k = k') ∧
    ∀ (symbol symbol' : SymbolRef) (location location' : Option NodeId)
      (between : List Session.Call) (i j : RecordId) (t t' : Session),
      w.program.key symbol = w.program.key symbol' →
      Session.resolve w symbol location (s.after w calls) = .ok i t →
      Session.resolve w symbol' location' (t.after w between) = .ok j t' → i = j := by
  have hidentified : s.store.Identified := start_identified.of_ok hstart
  have hafter : (s.after w calls).store.Identified :=
    (Session.after_tracks calls hidentified).identified
  have hsound : (s.after w calls).Sound faults :=
    Session.after_sound (start_ensures.of_ok hstart).1 calls
  refine ⟨hafter.keyed.single, fun k hub hk => ?_, fun key k k' hub hub' hk hk' hof hof' => ?_,
    fun symbol symbol' location location' between i j t t' hkey hi hj => ?_⟩
  · have hmem : hub ∈ hubsIn (s.after w calls).store.elements :=
      List.mem_filterMap.mpr ⟨_, List.mem_of_getElem? hk, rfl⟩
    obtain ⟨i, r, hr, hset⟩ := hafter.hubs hub hmem
    exact ⟨r.key, i, r, hr, rfl, hset⟩
  · obtain ⟨i, r, hr, hrkey, hset⟩ := hof
    obtain ⟨j, r', hr', hrkey', hset'⟩ := hof'
    -- One key, one record, one result set.
    obtain rfl := hafter.keyed.single i j r r' hr hr' (hrkey.trans hrkey'.symm)
    cases hr.symm.trans hr'
    cases hset.symm.trans hset'
    have hlt : k < ((s.after w calls).graph.elements.map Element.id).length := by
      rw [List.length_map]
      exact (List.getElem?_eq_some_iff.mp hk).1
    refine (List.getElem?_inj hlt hsound.store.graph.nodup_ids).mp ?_
    rw [List.getElem?_map, List.getElem?_map]
    exact (congrArg (Option.map Element.id) hk).trans (congrArg (Option.map Element.id) hk').symm
  · obtain ⟨htracks, hid⟩ := (Session.resolve_tracks symbol location hafter).of_ok hi
    have hbetween := Session.after_tracks (w := w) between htracks.identified
    obtain ⟨htracks', r', hr', hr'key⟩ :=
      (Session.resolve_tracks symbol' location' hbetween.identified).of_ok hj
    obtain ⟨r, hr, hrkey⟩ := htracks'.names _ _ (hbetween.names _ _ hid)
    have hindex := htracks'.identified.keyed.single i.index j.index r r' hr hr'
      (hrkey.trans (hkey.trans hr'key.symm))
    cases i
    cases j
    exact congrArg RecordId.mk hindex

/-- Two symbols that are declared in one place, and a mention of the second. -/
def declaredTwice : Setting :=
  plain [.file ⟨"/p/a.ts"⟩ "var a = a;", .declaration ⟨0⟩ .variableDeclaration "a = a" "a",
    .symbol "a" .functionScopedVariable, .declare ⟨0⟩ ⟨1⟩,
    .symbol "a" .functionScopedVariable, .declare ⟨1⟩ ⟨1⟩, .identifier ⟨1⟩ "a" 1 ⟨1⟩]

/-- A sink that refuses its third element. -/
def refusesThird (n : Nat) : Option SinkFault := if n = 2 then some (.io "refused") else none

/-- The sink refuses the result set of the first symbol, so that resolving it fails; from then on both
symbols have the record that was stored. -/
theorem declaredTwice_one_record : ∃ s g i j t t',
    start declaredTwice (Graph.ofSink (.memory refusesThird 0 #[])) = .ok s g ∧
    Session.resolve declaredTwice ⟨0⟩ none (s.after declaredTwice [.resolve ⟨0⟩ none]) = .ok i t ∧
    Session.resolve declaredTwice ⟨1⟩ none (t.after declaredTwice [.visitFile ⟨0⟩]) = .ok j t' ∧
    i = j := by
  have hkey : declaredTwice.program.key ⟨0⟩ = declaredTwice.program.key ⟨1⟩ := by decide +kernel
  have hrun : (outcome? (start declaredTwice) (Graph.ofSink (.memory refusesThird 0 #[]))).any
      (fun first => (outcome? (Session.resolve declaredTwice ⟨0⟩ none)
          (first.1.after declaredTwice [.resolve ⟨0⟩ none])).any fun second =>
        (outcome? (Session.resolve declaredTwice ⟨1⟩ none)
          (second.2.after declaredTwice [.visitFile ⟨0⟩])).isSome) = true := by
    decide +kernel
  obtain ⟨⟨s, g⟩, hfirst, hrun⟩ := (Option.any_eq_true _ _).mp hrun
  obtain ⟨⟨i, t⟩, hsecond, hrun⟩ := (Option.any_eq_true _ _).mp hrun
  obtain ⟨⟨j, t'⟩, hthird⟩ := Option.isSome_iff_exists.mp hrun
  have hstart := outcome?_eq_some.mp hfirst
  have hi := outcome?_eq_some.mp hsecond
  have hj := outcome?_eq_some.mp hthird
  exact ⟨s, g, i, j, t, t', hstart, hi, hj,
    (one_record hstart _).2.2.2 _ _ _ _ _ i j t t' hkey hi hj⟩

end Run

end SymbolGraph
