import SymbolGraph.Proofs.Graph.Searching
import SymbolGraph.Proofs.Run.Following
import SymbolGraph.Proofs.Run.References

/-!
# Proofs — Run — asking for references from a reference

A mention is listed by the records that it feeds.  A reader who asks from it starts at the first
reference result on its way and goes on through the reference results listed there.  The two meet
where the record keeps its mentions, and where it is a shared property that leads to such a record.
They do not meet at an overriding method: its mentions are listed by the methods that it overrides,
and it is their results that lead to its own, not the other way round.

* `Store.Answerable`: the reference result of a record leads to where its mentions are listed.
* `Store.FindsItself`: so does the first reference result on the way from it.
* `Run.Ended.mem_references_self`: these are the records whose mentions are found from themselves.
-/

namespace SymbolGraph

open Query

variable {faults : Nat → Option SinkFault} {w : Setting}

namespace Store

/-- A property behind a shared one. -/
def IsShared (s : Store) (a : RecordId) : Prop :=
  ∃ shared elements anchor, s.kind? shared = some (.composite elements anchor) ∧ a ∈ elements

/-- The reference result of the record leads to where its mentions are listed: the record keeps
them, or it is a shared property and one of the properties behind it is answerable. -/
inductive Answerable (s : Store) : RecordId → Prop
  | rests {a : RecordId} {kind : RecordKind} : s.kind? a = some kind → kind.passesTo = none →
      Answerable s a
  | shares {a e : RecordId} {elements : List RecordId} {anchor : FileId} :
      s.kind? a = some (.composite elements anchor) → e ∈ elements → Answerable s e → Answerable s a

/-- The record is answerable, or it is an alias of such a record.  An alias behind a shared property
has a reference result of its own, which is empty and in the way. -/
inductive FindsItself (s : Store) : RecordId → Prop
  | here {a : RecordId} : s.Answerable a → FindsItself s a
  | behind {a b : RecordId} {renames : Bool} : s.kind? a = some (.aliased b renames) →
      ¬ s.IsShared a → FindsItself s b → FindsItself s a

variable {s : Store} {a b t : RecordId} {v u : VertexRef} {later : List ElementId} {d r : ElementId}

/-- Only records that keep their mentions and shared properties are answerable. -/
theorem not_answerable {kind : RecordKind} (hk : s.kind? a = some kind)
    (hpasses : kind.passesTo ≠ none)
    (hcomposite : ∀ elements anchor, kind ≠ .composite elements anchor) : ¬ s.Answerable a := by
  intro ha
  cases ha with
  | rests hk' hrests =>
      cases hk.symm.trans hk'
      exact hpasses hrests
  | shares hk' _ _ =>
      cases hk.symm.trans hk'
      exact hcomposite _ _ rfl

/-- An alias passes on what it is given. -/
theorem feeds_alias {renames : Bool} (hk : s.kind? a = some (.aliased b renames)) :
    s.Feeds a t ↔ s.Feeds b t := by
  unfold Feeds
  rw [Route.iff_of_passes hk (show RecordKind.passesTo _ = some [b] from rfl)]
  simp

/-- A record that is no alias finds itself if it is answerable. -/
theorem findsItself_of_ends {kind : RecordKind} (hk : s.kind? a = some kind)
    (hends : kind.aliasOf = none) : s.FindsItself a ↔ s.Answerable a := by
  refine ⟨fun hfinds => ?_, .here⟩
  cases hfinds with
  | here ha => exact ha
  | behind hk' _ _ =>
      cases hk.symm.trans hk'
      cases hends

/-- An alias finds itself if its target does and it is not shared. -/
theorem findsItself_of_passes {renames : Bool} (hk : s.kind? a = some (.aliased b renames)) :
    s.FindsItself a ↔ ¬ s.IsShared a ∧ s.FindsItself b := by
  constructor
  · intro hfinds
    cases hfinds with
    | here ha => exact absurd ha (not_answerable hk nofun nofun)
    | behind hk' hshared hb =>
        cases hk.symm.trans hk'
        exact ⟨hshared, hb⟩
  · rintro ⟨hshared, hb⟩
    exact .behind hk hshared hb

namespace Settled

variable (h : s.Settled faults)

include h

/-- What a reference result leads to: the results of overriding methods and, from a shared property,
those of the properties behind it. -/
theorem citing_of_listed {q : ElementId} (hu : s.citing? a = some u)
    (hlisted : ∃ document, Listed s.elements u.id (some .referenceResults) document q) :
    ∃ c u', s.citing? c = some u' ∧ u'.id = q ∧
      ((∃ base bases anchor, s.kind? c = some (.method (base :: bases) anchor)) ∨
        ∃ elements anchor, s.kind? a = some (.composite elements anchor) ∧ c ∈ elements) := by
  obtain ⟨document, hlisted⟩ := hlisted
  have hcited := h.cited_iff.mpr ⟨u, hu, hlisted⟩
  rcases (h.balanced.answers a q).mp ⟨document, hcited⟩ with
    ⟨m, base, bases, anchor, b, u', hm, -, -, hu', rfl⟩ |
    ⟨elements, anchor, e, u', ha, he, hu', rfl⟩
  · exact ⟨m, u', hu', rfl, .inl ⟨base, bases, anchor, hm⟩⟩
  · exact ⟨e, u', hu', rfl, .inr ⟨elements, anchor, ha, he⟩⟩

/-- The reference result of a shared property lists those of the properties behind it. -/
theorem listed_of_shares {e : RecordId} {elements : List RecordId} {anchor : FileId}
    (ha : s.kind? a = some (.composite elements anchor)) (he : e ∈ elements) :
    ∃ u u', s.citing? a = some u ∧ s.citing? e = some u' ∧
      ∃ document, Listed s.elements u.id (some .referenceResults) document u'.id := by
  obtain ⟨u', hu'⟩ := h.balanced.needs e (.inr ⟨a, elements, anchor, ha, he⟩)
  obtain ⟨document, hcited⟩ := (h.balanced.answers a u'.id).mpr
    (.inr ⟨elements, anchor, e, u', ha, he, hu', rfl⟩)
  obtain ⟨u, hu, hlisted⟩ := h.cited_iff.mp hcited
  exact ⟨u, u', hu, hu', document, hlisted⟩

/-- A record is answerable if its reference result leads to that of a record that keeps its
mentions. -/
theorem answerable_of_reaches {kind : RecordKind} (hu : s.citing? t = some u)
    (hk : s.kind? t = some kind) (hrests : kind.passesTo = none) {p : ElementId}
    (hreaches : Reaches s.elements p u.id) :
    ∀ a u', s.citing? a = some u' → u'.id = p → s.Answerable a := by
  induction hreaches using Relation.ReflTransGen.head_induction_on with
  | refl =>
      intro a u' hu' hid
      rw [citing?_inj h.sound hu' hu hid]
      exact .rests hk hrests
  | head hstep _ ih =>
      rintro a u' hu' rfl
      obtain ⟨c, u'', hu'', hid, hcase⟩ := h.citing_of_listed hu' hstep
      have hc := ih c u'' hu'' hid
      rcases hcase with ⟨base, bases, anchor, hmethod⟩ | ⟨elements, anchor, ha, hmem⟩
      · -- From an overriding method one only gets to more of them.
        exact absurd hc (not_answerable hmethod nofun nofun)
      · exact .shares ha hmem hc

/-- From an answerable record one gets to a record that it feeds. -/
theorem reaches_of_answerable (ha : s.Answerable a) (hu : s.citing? a = some u) :
    ∃ t u', Reaches s.elements u.id u'.id ∧ s.citing? t = some u' ∧ s.Feeds a t := by
  induction ha generalizing u with
  | rests hk hrests => exact ⟨_, u, .refl, hu, .rests hk hrests⟩
  | shares hk he _ ih =>
      obtain ⟨u₀, u', hu₀, hu', hlisted⟩ := h.listed_of_shares hk he
      cases hu.symm.trans hu₀
      obtain ⟨t, u'', hreaches, hu'', hfeeds⟩ := ih hu'
      exact ⟨t, u'', .head hlisted hreaches, hu'', .passes hk rfl he hfeeds⟩

theorem answerable_iff (hu : s.citing? a = some u) : s.Answerable a ↔
    ∃ t u', Reaches s.elements u.id u'.id ∧ s.citing? t = some u' ∧ s.Feeds a t := by
  refine ⟨fun ha => h.reaches_of_answerable ha hu, ?_⟩
  rintro ⟨t, u', hreaches, hu', hfeeds⟩
  obtain ⟨kind, hk, hrests⟩ := hfeeds.ends
  exact h.answerable_of_reaches hu' hk hrests hreaches a u hu rfl

/-- An alias has a reference result only behind a shared property. -/
theorem isShared_of_citing {renames : Bool} (hk : s.kind? a = some (.aliased b renames))
    (hu : s.citing? a = some u) : s.IsShared a := by
  rcases (h.balanced.warranted a).1 (by rw [hu]; exact nofun) with ⟨property, d, x, hcited⟩ | hneeds
  · -- What an alias is given, it passes on.
    rcases property.eq_or_role with rfl | ⟨role, rfl⟩
    · rcases (h.balanced.answers a x).mp ⟨d, hcited⟩ with
        ⟨m, base, bases, anchor, c, u', -, -, hroute, -⟩ | ⟨elements, anchor, e, u', hk', -⟩
      · obtain ⟨kind, hk', hends⟩ := hroute.ends
        cases hk.symm.trans hk'
        cases hends
      · cases hk.symm.trans hk'
    · obtain ⟨c, kind, tag, -, -, -, hroute⟩ := (h.balanced.cites a role d x).mp hcited
      obtain ⟨kind, hk', hends⟩ := hroute.ends
      cases hk.symm.trans hk'
      cases hends
  · rcases hneeds with ⟨base, bases, anchor, hk'⟩ | hshared
    · cases hk.symm.trans hk'
    · exact hshared

/-- An answerable record that lists what it is fed has a reference result. -/
theorem citing_of_answerable (ha : s.Answerable a)
    (hfed : ∀ t, s.Feeds a t → ∃ u, s.citing? t = some u) : ∃ u, s.citing? a = some u := by
  cases ha with
  | rests hk hrests => exact hfed a (.rests hk hrests)
  | shares hk he _ =>
      obtain ⟨u, u', hu, -⟩ := h.listed_of_shares hk he
      exact ⟨u, hu⟩

/-- The first reference result from a record on leads to one that the record feeds. -/
theorem findsItself_iff (hbehind : s.Behind a later) (hv : s.hub? a = some v)
    (hfed : ∀ t, s.Feeds a t → ∃ u, s.citing? t = some u) :
    s.FindsItself a ↔ ∃ result,
      ((v.id :: later).findSome? fun y => firstTarget s.elements y .references) = some result ∧
        ∃ t u, Reaches s.elements result u.id ∧ s.citing? t = some u ∧ s.Feeds a t := by
  induction hbehind generalizing v with
  | @ends a kind hk hends =>
      rw [List.findSome?_cons, h.firstTarget_references hv, findsItself_of_ends hk hends]
      cases hc : s.citing? a with
      | some u => simp [h.answerable_iff hc]
      | none =>
          refine iff_of_false (fun ha => ?_) (by simp)
          obtain ⟨u, hu⟩ := h.citing_of_answerable ha hfed
          rw [hc] at hu
          cases hu
  | @passes a b renames v' later hk hv' _ ih =>
      rw [List.findSome?_cons, h.firstTarget_references hv, findsItself_of_passes hk]
      cases hc : s.citing? a with
      | some u =>
          -- The result of the alias itself is in the way, and leads to nothing that is fed.
          have hshared := h.isShared_of_citing hk hc
          have hnot := not_answerable hk nofun nofun
          rw [h.answerable_iff hc] at hnot
          simpa [hshared] using hnot
      | none =>
          have hshared : ¬ s.IsShared a := by
            intro hshared
            obtain ⟨u, hu⟩ := h.balanced.needs a (.inr hshared)
            rw [hc] at hu
            cases hu
          simp only [feeds_alias hk] at hfed ⊢
          rw [ih hv' hfed, Option.map_none]
          exact and_iff_right hshared

/-- A mention is listed by the records that its record feeds. -/
theorem shows_iff {text : String} (howns : s.Owns a d r (.reference text))
    (hu : s.citing? t = some u) : Shows s.elements (fun _ => true) u.id r ↔ s.Feeds a t := by
  constructor
  · rintro ⟨property, document, hproperty, -, hlisted⟩
    cases property with
    | none =>
        -- A list without a property is that of a definition result.
        obtain ⟨c, hc, hcr⟩ := Option.bind_eq_some_iff.mp hu
        obtain ⟨-, hsource, -⟩ := Listed.refersTo h.sound.graph hlisted
        have hresult := ((h.sound.records _ c hc).referenceResult u hcr).2
        cases h.sound.graph.label_unique hresult hsource
    | some property =>
        rcases property.eq_or_role with rfl | ⟨role, rfl⟩
        · exact absurd rfl hproperty
        · have hcited := h.cited_iff.mpr ⟨u, hu, hlisted⟩
          obtain ⟨b, kind, tag, hfiled, -, -, hroute⟩ :=
            (h.balanced.cites t role document r).mp hcited
          rw [h.owner_unique howns (h.filed_iff.mp hfiled)]
          exact hroute
  · intro hfeeds
    obtain ⟨-, -, v, hv, -⟩ := id howns
    obtain ⟨kind, hk⟩ := kind?_of_hub? hv
    have hcited := (h.balanced.cites t .references d r).mpr
      ⟨a, kind, _, h.filed_iff.mpr howns, hk, rfl, hfeeds⟩
    obtain ⟨u', hu', hlisted⟩ := h.cited_iff.mp hcited
    cases hu.symm.trans hu'
    exact ⟨some .references, d, nofun, rfl, hlisted⟩

/-- From a reference result one gets to reference results of records only. -/
theorem citing_of_reaches {q : ElementId} (hu : s.citing? a = some u)
    (hreaches : Reaches s.elements u.id q) : ∃ c u', s.citing? c = some u' ∧ u'.id = q := by
  induction hreaches with
  | refl => exact ⟨a, u, hu, rfl⟩
  | tail _ hstep ih =>
      obtain ⟨c, u', hu', rfl⟩ := ih
      obtain ⟨c', u'', hu'', hid, -⟩ := h.citing_of_listed hu' hstep
      exact ⟨c', u'', hu'', hid⟩

/-- The first reference result on the way from a record is that of a record. -/
theorem citing_of_findSome (hbehind : s.Behind a later) (hv : s.hub? a = some v)
    {result : ElementId}
    (hfirst : ((v.id :: later).findSome? fun y => firstTarget s.elements y .references) =
      some result) : ∃ c u, s.citing? c = some u ∧ u.id = result := by
  obtain ⟨y, hy, htarget⟩ := List.exists_of_findSome?_eq_some hfirst
  have hhub : ∃ c v', s.hub? c = some v' ∧ v'.id = y := by
    rcases List.mem_cons.mp hy with rfl | hy
    · exact ⟨a, v, hv, rfl⟩
    · obtain ⟨c, v', hv', hid, -⟩ := hbehind.older h.sound y hy
      exact ⟨c, v', hv', hid⟩
  obtain ⟨c, v', hv', rfl⟩ := hhub
  rw [h.firstTarget_references hv'] at htarget
  obtain ⟨u, hu, hid⟩ := Option.map_eq_some_iff.mp htarget
  exact ⟨c, u, hu, hid⟩

/-- A mention is found from itself if its record finds itself. -/
theorem mem_references_iff {text : String} (howns : s.Owns a d r (.reference text)) :
    r ∈ references s.elements r ↔ s.FindsItself a := by
  obtain ⟨htag, -, v, hv, hnext⟩ := id howns
  obtain ⟨later, hbehind⟩ := h.exists_behind hv
  have hfirst : firstResult s.elements r .references = _ :=
    h.firstResult_eq htag.delivered hv hnext hbehind (.inr rfl)
  -- Whatever the record feeds lists the mention, and so has a reference result.
  have hfed : ∀ t, s.Feeds a t → ∃ u, s.citing? t = some u := by
    intro t hfeeds
    obtain ⟨kind, hk⟩ := kind?_of_hub? hv
    obtain ⟨u, hu, -⟩ := h.cited_iff.mp ((h.balanced.cites t .references d r).mpr
      ⟨a, kind, _, h.filed_iff.mpr howns, hk, rfl, hfeeds⟩)
    exact ⟨u, hu⟩
  rw [mem_references, hfirst, h.findsItself_iff hbehind hv hfed]
  refine exists_congr fun result => and_congr_right fun hresult => ?_
  constructor
  · rintro ⟨q, hreaches, hshows⟩
    obtain ⟨c, u, hu, rfl⟩ := h.citing_of_findSome hbehind hv hresult
    obtain ⟨t, u', hu', rfl⟩ := h.citing_of_reaches hu hreaches
    exact ⟨t, u', hreaches, hu', (h.shows_iff howns hu').mp hshows⟩
  · rintro ⟨t, u, hreaches, hu, hfeeds⟩
    exact ⟨u.id, hreaches, (h.shows_iff howns hu).mpr hfeeds⟩

end Settled

end Store

namespace Run

/-- **A mention is found from itself exactly where its record finds itself.** -/
theorem Ended.mem_references_self {s : Session} (h : Ended w faults s) {r : ElementId}
    {text : String} (htag : Tagged s.graph.elements r (.reference text)) :
    r ∈ references s.graph.elements r ↔
      ∃ a d, s.store.OwnsReference a d r ∧ s.store.FindsItself a := by
  obtain ⟨a, d, howns⟩ := h.settled.exists_owner htag
  refine (h.settled.mem_references_iff howns).trans ?_
  constructor
  · exact fun hfinds => ⟨a, d, ⟨text, howns⟩, hfinds⟩
  · rintro ⟨b, d', ⟨text', howns'⟩, hfinds⟩
    rw [h.settled.owner_unique howns howns']
    exact hfinds

/-- The mention of an overriding method is not found from itself. -/
theorem overriding_not_findsItself : ∃ s, Ended overriding (fun _ => none) s ∧
    ∀ a d, s.store.OwnsReference a d ⟨18⟩ → ¬ s.store.FindsItself a := by
  obtain ⟨s, hs, -, -, -, htag, -, -, hreferences⟩ := overriding_ended
  refine ⟨s, hs, fun a d howns hfinds => ?_⟩
  have hmem := (hs.mem_references_self htag).mpr ⟨a, d, howns, hfinds⟩
  rw [hreferences] at hmem
  cases hmem

/-- So not every mention is found from itself. -/
theorem not_forall_mem_references_self : ¬ ∀ (w : Setting) (s : Session) (r : ElementId)
    (text : String), Ended w (fun _ => none) s → Tagged s.graph.elements r (.reference text) →
      r ∈ references s.graph.elements r := by
  intro hall
  obtain ⟨s, hs, -, -, -, htag, -, -, hreferences⟩ := overriding_ended
  have hmem := hall overriding s ⟨18⟩ "m" hs htag
  rw [hreferences] at hmem
  cases hmem

end Run

end SymbolGraph
