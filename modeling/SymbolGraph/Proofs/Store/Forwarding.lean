import SymbolGraph.Proofs.Store.Books
import SymbolGraph.Proofs.Store.Bracing
import SymbolGraph.Proofs.Symbol.Terminating

/-!
# Proofs — Store — forwarding comes to an end

A record passes on to earlier ones only, so recording a reference is a recursion that ends by itself
after as many levels as there are records before it: whatever would be done further down, nothing
else comes of it.  A definition is recorded under one record, and as a reference under those that it
passes on to.  In the graph the same is said by `next` edges between result sets, each of which leads
to one that was delivered before its source.

* `Store.Sturdy.addReference_ends`: recording a reference ends by itself.
* `Store.Sturdy.addDefinition_ends`: so does recording a definition.
* `Store.ForwardsTo`: a `next` edge between result sets.
* `Store.Forwarding`: all that is said of a store.
* `Store.Sound.forwarding`: it holds whatever fails.
-/

namespace SymbolGraph.Store

open SymbolGraph.Action SymbolGraph.Discipline

variable {w : Setting} {s t : Store} {id : RecordId} {file : FileId} {reference : Reference}
  {role : ReferenceRole} {faults : Nat → Option SinkFault}

/-! ### References -/

/-- What is done to an open record is the same if it is the same for the record that is there. -/
theorem whenOpen_eq_of {act act' : Record → Storing Unit} (hs : s.Sturdy)
    (h : ∀ r, s.records[id.index]? = some r → act r s = act' r s) :
    whenOpen id act s = whenOpen id act' s := by
  refine bind_eq_of rfl ((record_braces hs).mono (fun r t ht => ?_) fun _ _ _ => trivial)
  obtain ⟨-, rfl, hr⟩ := ht
  cases hopen : r.isOpen with
  | error fault => rfl
  | ok opened =>
      cases opened with
      | false => rfl
      | true => exact h r hr

/-- One level of recording a reference asks for earlier records only. -/
theorem passOn_eq_of {ask ask' : RecordId → Storing Unit} (hs : s.Sturdy)
    (h : ∀ other : RecordId, other.index < s.before id → ∀ t : Store, t.Sturdy →
      ask other t = ask' other t ∧ Braces (ask other) t fun _ _ => True) :
    passOn w file reference role ask id s = passOn w file reference role ask' id s := by
  -- A record passes only to earlier ones, for which `ask` and `ask'` agree by `h`.
  refine whenOpen_eq_of hs fun r hr => ?_
  have hlater {ids : List RecordId} (hids : r.kind.passesTo = some ids) :
      ∀ other ∈ ids, ∀ t : Store, t.Sturdy →
        ask other t = ask' other t ∧ Braces (ask other) t fun _ _ => True :=
    fun other hother => h other (hs.lt_before hr hids hother)
  have hloop {ids : List RecordId} (hids : r.kind.passesTo = some ids) :
      ids.forM ask s = ids.forM ask' s := forM_eq_of (d := bracing) ids (hlater hids) hs
  generalize hkind : r.kind = kind at hlater hloop ⊢
  cases kind with
  | aliased target renames => exact (hlater rfl target List.mem_cons_self s hs).1
  | method bases anchor =>
      cases bases with
      | nil => rfl
      | cons base bases =>
          cases reference with
          | range range => exact hloop rfl
          | result result => rfl
  | composite elements anchor =>
      cases reference with
      | range range => exact hloop rfl
      | result result => rfl
  | standard => rfl
  | transient => rfl

theorem addReferenceWithin_eq_iterate (fuel : Nat) :
    addReferenceWithin w file reference role fuel
      = (passOn w file reference role)^[fuel] fun _ => throw .endlessChain := by
  induction fuel with
  | zero => rfl
  | succ fuel ih =>
      rw [Function.iterate_succ_apply', ← ih]
      rfl

/-- **Recording a reference ends by itself**, within as many levels as there are records before. -/
theorem Sturdy.passOn_ends (hs : s.Sturdy) :
    EndsWithin (passOn w file reference role) (s.before id + 1) id s := by
  refine endsWithin_of (fun depth a t => t.Sturdy ∧ t.before a < depth)
    (fun a t r => Braces (fun _ => r) t fun (_ : Unit) _ => True)
    (fun _ _ h => Nat.not_lt_zero _ h.2) (fun depth ask ask' ih a t ht => ?_)
    ⟨hs, Nat.lt_succ_self _⟩
  have hless (other : RecordId) (hother : other.index < t.before a) (u : Store) :
      u.before other < depth := by
    have hle : u.before other ≤ other.index := Nat.min_le_left ..
    omega
  have hasked (other : RecordId) (hother : other.index < t.before a) (u : Store) :
      Braces (ask other) u fun _ _ => True :=
    fun hu => (ih other u ⟨hu, hless other hother u⟩).2 hu
  exact ⟨passOn_eq_of ht.1 fun other hother u hu =>
    ⟨(ih other u ⟨hu, hless other hother u⟩).1, hasked other hother u⟩, passOn_braces hasked⟩

/-- Whatever would be done further down, it is what recording a reference does. -/
theorem Sturdy.addReference_ends (hs : s.Sturdy) {depth : Nat} (hdepth : s.before id < depth)
    (deeper : RecordId → Storing Unit) :
    (passOn w file reference role)^[depth] deeper id s = addReference w id file reference role s := by
  have hsize : s.before id + 1 ≤ s.records.size + 1 := Nat.succ_le_succ (Nat.min_le_right ..)
  unfold addReference
  rw [get_bind_run, addReferenceWithin_eq_iterate]
  exact hs.passOn_ends.iterate_eq hdepth hsize _ _

/-! ### Definitions -/

/-- A definition is cited by earlier records only. -/
theorem define_eq_of {cite cite' : ReferenceRole → RecordId → Storing Unit} {range : ElementId}
    {asReference : Bool} (hs : s.Sturdy)
    (h : ∀ role, ∀ other : RecordId, other.index < s.before id → ∀ t : Store, t.Sturdy →
      cite role other t = cite' role other t ∧ Braces (cite role other) t fun _ _ => True) :
    define w cite id file range asReference s = define w cite' id file range asReference s := by
  refine whenOpen_eq_of hs fun r hr => ?_
  have hlater {ids : List RecordId} (hids : r.kind.passesTo = some ids) (role : ReferenceRole) :
      ∀ other ∈ ids, ∀ t : Store, t.Sturdy →
        cite role other t = cite' role other t ∧ Braces (cite role other) t fun _ _ => True :=
    fun other hother => h role other (hs.lt_before hr hids hother)
  generalize hkind : r.kind = kind at hlater ⊢
  cases kind with
  | aliased target renames =>
      cases renames with
      | true => rfl
      | false =>
          refine bind_eq_of rfl ((resultSet_braces hs).mono (fun hub t ht => ?_)
            fun _ _ _ => trivial)
          refine bind_eq_of rfl ((link_braces ht.1.sturdy).mono (fun _ u hu => ?_)
            fun _ _ _ => trivial)
          exact (hlater rfl .references target List.mem_cons_self u hu.1.sturdy).1
  | method bases anchor =>
      cases bases with
      | nil => rfl
      | cons base bases =>
          refine bind_eq_of rfl ((addOwnDefinition_braces hs).mono (fun _ t ht => ?_)
            fun _ _ _ => trivial)
          exact forM_eq_of (d := bracing) _ (hlater rfl .definitions) ht.1.sturdy
  | standard | composite | transient => rfl

/-- **Recording a definition ends by itself**: whatever would be done further down where it is cited,
it is what recording a definition does. -/
theorem Sturdy.addDefinition_ends (hs : s.Sturdy) {range : ElementId} {asReference : Bool}
    {depth : Nat} (hdepth : s.before id ≤ depth) (deeper : ReferenceRole → RecordId → Storing Unit) :
    define w (fun role => (passOn w file (.range range) role)^[depth] (deeper role)) id file range
      asReference s = addDefinition w id file range asReference s := by
  have hcited (role : ReferenceRole) (other : RecordId) (hother : other.index < s.before id)
      (t : Store) (ht : t.Sturdy) : addReference w other file (.range range) role t
        = (passOn w file (.range range) role)^[depth] (deeper role) other t := by
    have hle : t.before other ≤ other.index := Nat.min_le_left ..
    exact (ht.addReference_ends (by omega) (deeper role)).symm
  unfold addDefinition
  exact (define_eq_of hs fun role other hother t ht =>
    ⟨hcited role other hother t ht, addReference_braces⟩).symm

/-! ### Result sets -/

/-- A `next` edge leads from one result set to another. -/
def ForwardsTo (elements : List Element) (source target : ElementId) : Prop :=
  Linked elements .next source target ∧ Delivered elements .resultSet source ∧
    Delivered elements .resultSet target

/-- A result set forwards to one that was delivered before it. -/
theorem Sound.lt_of_forwardsTo (hs : s.Sound faults) {source target : ElementId}
    (h : ForwardsTo s.elements source target) : target.value < source.value := by
  obtain ⟨hlinked, hsource, -⟩ := h
  refine (hs.falls source target hlinked).resolve_left fun hrange => ?_
  cases hs.graph.label_unique hrange hsource

/-- **No result set forwards to itself**, directly or through others. -/
theorem Sound.forwardsTo_acyclic (hs : s.Sound faults) (hub : ElementId) :
    ¬ Relation.TransGen (ForwardsTo s.elements) hub hub := by
  have hless {source target : ElementId}
      (h : Relation.TransGen (ForwardsTo s.elements) source target) :
      target.value < source.value := by
    induction h with
    | single hfirst => exact hs.lt_of_forwardsTo hfirst
    | tail _ hlast ih => exact Nat.lt_trans (hs.lt_of_forwardsTo hlast) ih
  exact fun hcircle => Nat.lt_irrefl _ (hless hcircle)

/-! ### Together -/

/-- Forwarding comes to an end. -/
structure Forwarding (w : Setting) (s : Store) : Prop where
  /-- What a record passes on to has a smaller number. -/
  earlier     : ∀ (i : Nat) (r : Record), s.records[i]? = some r →
    ∀ ids, r.kind.passesTo = some ids → ∀ id ∈ ids, id.index < i
  /-- Recording a reference does not depend on what would be done below as many levels as there are
  records before. -/
  references  : ∀ (id : RecordId) file reference role depth deeper, id.index < depth →
    (passOn w file reference role)^[depth] deeper id s = addReference w id file reference role s
  /-- Nor does recording a definition. -/
  definitions : ∀ (id : RecordId) file range asReference depth
      (deeper : ReferenceRole → RecordId → Storing Unit), id.index ≤ depth →
    define w (fun role => (passOn w file (.range range) role)^[depth] (deeper role)) id file range
      asReference s = addDefinition w id file range asReference s
  /-- Neither is given up as endless. -/
  endless     : ∀ id file t,
    (∀ reference role, addReference w id file reference role s ≠ .error .endlessChain t) ∧
    ∀ range asReference, addDefinition w id file range asReference s ≠ .error .endlessChain t
  /-- No `next` edges between result sets run in a circle. -/
  hubs        : ∀ hub, ¬ Relation.TransGen (ForwardsTo s.elements) hub hub

theorem Sound.sturdy (hs : s.Sound faults) : s.Sturdy where
  project := hs.project.1
  documents file document hd := (hs.documents file document hd).vertex.1
  records i r hr := ⟨fun v hv => ((hs.records i r hr).definitionResult v hv).1,
    fun v hv => ((hs.records i r hr).referenceResult v hv).1⟩
  descends := hs.descends

/-- **Forwarding comes to an end**, whatever failed before. -/
theorem Sound.forwarding (hs : s.Sound faults) : s.Forwarding w where
  earlier := hs.descends
  references id file reference role depth deeper hdepth :=
    hs.sturdy.addReference_ends (Nat.lt_of_le_of_lt (Nat.min_le_left ..) hdepth) deeper
  definitions id file range asReference depth deeper hdepth :=
    hs.sturdy.addDefinition_ends (Nat.le_trans (Nat.min_le_left ..) hdepth) deeper
  endless id file t := by
    refine ⟨fun reference role hrun => ?_, fun range asReference hrun => ?_⟩
    · exact (Ensures.of_error (addReference_braces hs.sturdy) hrun).1
    · exact (Ensures.of_error (addDefinition_braces hs.sturdy) hrun).1
  hubs := hs.forwardsTo_acyclic

end SymbolGraph.Store
