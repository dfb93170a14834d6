import SymbolGraph.Proofs.Store.Closing
import SymbolGraph.Proofs.Store.Opening

/-!
# Proofs — Store — the books balance

Every tagged range is filed under one record: it belongs to a document and leads to the result set
of that record.  The books balance when everything that is cited or defined by comes from a filed
range, and every filed range is cited and defined by where the kinds of the records say.

* `Store.Filed`: a range that is filed under a record.
* `Store.Balanced`: the law.
* `Store.Balanced.file`: filing a new range keeps it.
* `Store.Balanced.open`: so does a new record.
-/

namespace SymbolGraph

namespace RangeTag

/-- The role in which a range with a tag is cited, by the kind of its record. -/
def role (kind : RecordKind) : RangeTag → Option ReferenceRole
  | .reference _      => some .references
  | .definition _ _ _ => kind.definitionRole

/-- Whether ranges with a tag are filed under records of a kind. -/
def suits (kind : RecordKind) : RangeTag → Bool
  | .reference _      => true
  | .definition _ _ _ => kind.acceptsDefinitions

/-- Whether the record of a range with a tag is defined by it. -/
def owned (kind : RecordKind) : RangeTag → Bool
  | .reference _      => false
  | .definition _ _ _ => kind.ownsDefinitions

end RangeTag

theorem ReferenceRole.property_inj {role role' : ReferenceRole}
    (h : role.property = role'.property) : role = role' := by
  cases role <;> cases role' <;> first | rfl | cases h

/-- Every property is that of a role, but for the one of reference results. -/
theorem ItemProperty.eq_or_role (property : ItemProperty) :
    property = .referenceResults ∨ ∃ role : ReferenceRole, role.property = property := by
  cases property with
  | referenceResults => exact .inl rfl
  | declarations => exact .inr ⟨.declarations, rfl⟩
  | definitions => exact .inr ⟨.definitions, rfl⟩
  | references => exact .inr ⟨.references, rfl⟩

theorem ReferenceRole.property_ne (role : ReferenceRole) : role.property ≠ .referenceResults := by
  cases role <;> nofun

namespace Store

open SymbolGraph.Action

variable {faults : Nat → Option SinkFault} {s t u : Store}

/-- A range of a document with a tag, filed under a record. -/
def Filed (s : Store) (a : RecordId) (document range : ElementId) (tag : RangeTag) : Prop :=
  s.Holds (.tagged range tag) ∧ s.Holds (.contained document range) ∧
    ∃ v, s.hub? a = some v ∧ s.Holds (.next range v.id)

/-- The reference results that a record cites: those of the methods that override it, and of the
properties behind it when it is a shared one. -/
def Answers (s : Store) (i : RecordId) (x : ElementId) : Prop :=
  (∃ m base bases anchor b v, s.kind? m = some (.method (base :: bases) anchor) ∧
    b ∈ base :: bases ∧ Route s.kind? RecordKind.aliasOf b i ∧ s.citing? m = some v ∧ v.id = x) ∨
  ∃ elements anchor e v, s.kind? i = some (.composite elements anchor) ∧ e ∈ elements ∧
    s.citing? e = some v ∧ v.id = x

/-- What is cited and defined by is what was filed. -/
structure Balanced (s : Store) : Prop where
  begun     : ∀ a kind, s.kind? a = some kind → ∃ v, s.hub? a = some v
  filed     : ∀ range tag, s.Holds (.tagged range tag) → ∃ a document, s.Filed a document range tag
  suits     : ∀ a document range tag kind, s.Filed a document range tag → s.kind? a = some kind →
    tag.suits kind = true
  single    : ∀ source target target', s.Holds (.next source target) →
    s.Holds (.next source target') → target = target'
  leads     : ∀ a v, s.hub? a = some v → ∀ target, s.Holds (.next v.id target) ↔
    ∃ b renames u, s.kind? a = some (.aliased b renames) ∧ s.hub? b = some u ∧ u.id = target
  cites     : ∀ i (role : ReferenceRole) document x,
    s.Holds (.cited i role.property document x) ↔ ∃ a kind tag, s.Filed a document x tag ∧
      s.kind? a = some kind ∧ tag.role kind = some role ∧ Route s.kind? RecordKind.passesTo a i
  defines   : ∀ i document x, s.Holds (.defined i document x) ↔
    ∃ kind tag, s.Filed i document x tag ∧ s.kind? i = some kind ∧ tag.owned kind = true
  answers   : ∀ i x, (∃ document, s.Holds (.cited i .referenceResults document x)) ↔ s.Answers i x
  needs     : ∀ a, s.Needs a → ∃ v, s.citing? a = some v
  warranted : s.Warranted

/-! ### Stores that agree -/

/-- Two stores with the same records, as far as the law can tell. -/
structure Agrees (s t : Store) : Prop where
  kinds  : t.kind? = s.kind?
  hubs   : t.hub? = s.hub?
  citing : ∀ a, s.Needs a → t.citing? a = s.citing? a

theorem hub?_eq_none {a : RecordId} (h : s.kind? a = none) : s.hub? a = none := by
  unfold hub?
  rw [Option.map_eq_none_iff.mp h]
  rfl

theorem agrees_of_grows (hb : s.Balanced) (hgrows : s.Grows t)
    (hsize : t.records.size = s.records.size) : s.Agrees t := by
  have hkinds : t.kind? = s.kind? := by
    funext a
    rcases Nat.lt_or_ge a.index s.records.size with hlt | hge
    · exact hgrows.kind? hlt
    · rw [kind?_eq_none hge, kind?_eq_none (hsize ▸ hge)]
  refine ⟨hkinds, ?_, fun a ha => ?_⟩
  · funext a
    cases hk : s.kind? a with
    | some kind =>
        obtain ⟨v, hv⟩ := hb.begun a kind hk
        rw [hv]
        exact hgrows.hub? hv
    | none => rw [hub?_eq_none hk, hub?_eq_none (hkinds ▸ hk)]
  · obtain ⟨v, hv⟩ := hb.needs a ha
    rw [hv]
    exact hgrows.citing? hv

theorem Agrees.needs (h : s.Agrees t) (a : RecordId) : t.Needs a ↔ s.Needs a := by
  unfold Needs
  rw [h.kinds]

theorem Agrees.answers (h : s.Agrees t) (i : RecordId) (x : ElementId) :
    t.Answers i x ↔ s.Answers i x := by
  unfold Answers
  rw [h.kinds]
  refine or_congr ?_ ?_
  · refine exists_congr fun m => exists_congr fun base => exists_congr fun bases =>
      exists_congr fun anchor => exists_congr fun b => exists_congr fun v =>
        and_congr_right fun hm => ?_
    rw [h.citing m (.inl ⟨base, bases, anchor, hm⟩)]
  · refine exists_congr fun elements => exists_congr fun anchor => exists_congr fun e =>
      exists_congr fun v => and_congr_right fun hi => and_congr_right fun he => ?_
    rw [h.citing e (.inr ⟨i, elements, anchor, hi, he⟩)]

/-- The law carries over to a store that agrees and files the same ranges. -/
theorem Balanced.of_agrees (hb : s.Balanced) (h : s.Agrees t)
    (htagged : ∀ range tag, t.Holds (.tagged range tag) ↔ s.Holds (.tagged range tag))
    (hnext : ∀ source target, t.Holds (.next source target) ↔ s.Holds (.next source target))
    (hcontained : ∀ document range tag, s.Holds (.tagged range tag) →
      (t.Holds (.contained document range) ↔ s.Holds (.contained document range)))
    (hcited : ∀ i property document x,
      t.Holds (.cited i property document x) ↔ s.Holds (.cited i property document x))
    (hdefined : ∀ i document x, t.Holds (.defined i document x) ↔ s.Holds (.defined i document x))
    (hw : t.Warranted) : t.Balanced := by
  have hfiled : ∀ a document range tag,
      t.Filed a document range tag ↔ s.Filed a document range tag := by
    intro a document range tag
    unfold Filed
    simp only [htagged, h.hubs, hnext]
    exact and_congr_right fun htag => and_congr_left fun _ => hcontained document range tag htag
  -- Every field speaks of kinds, hubs and facts, which `t` has like `s`.
  refine ⟨?_, ?_, ?_, ?_, ?_, ?_, ?_, ?_, ?_, hw⟩
  · rw [h.kinds, h.hubs]
    exact hb.begun
  · simp only [htagged, hfiled]
    exact hb.filed
  · rw [h.kinds]
    simp only [hfiled]
    exact hb.suits
  · simp only [hnext]
    exact hb.single
  · rw [h.kinds, h.hubs]
    simp only [hnext]
    exact hb.leads
  · rw [h.kinds]
    simp only [hcited, hfiled]
    exact hb.cites
  · rw [h.kinds]
    simp only [hdefined, hfiled]
    exact hb.defines
  · simp only [hcited, h.answers]
    exact hb.answers
  · intro a ha
    rw [h.needs] at ha
    rw [h.citing a ha]
    exact hb.needs a ha

/-- Posting nothing keeps the law. -/
theorem Balanced.settle (hb : s.Balanced) (hl : s.Lasting) (h : s.Posts faults t ∅) :
    t.Balanced := by
  have hholds : ∀ fact, t.Holds fact ↔ s.Holds fact := by
    intro fact
    rw [h.holds hl, Set.mem_empty_iff_false, or_false]
  exact hb.of_agrees (agrees_of_grows hb h.grows h.size) (fun _ _ => hholds _) (fun _ _ => hholds _)
    (fun _ _ _ _ => hholds _) (fun _ _ _ _ => hholds _) (fun _ _ _ => hholds _)
    (h.warranted hl hb.warranted)

/-- The end of the project keeps the law. -/
theorem Balanced.finish (hb : s.Balanced) {source : ElementId} {ids : List ElementId}
    (h : s.Adds faults t (containment source ids))
    (hids : ∀ id ∈ ids, Delivered t.elements .document id) : t.Balanced := by
  have hholds : ∀ fact, (∀ document range, fact ≠ .contained document range) →
      (t.Holds fact ↔ s.Holds fact) := by
    intro fact hfact
    rw [h.holds]
    refine or_iff_left ?_
    rintro ⟨id, -, heq⟩
    exact hfact _ _ heq
  refine hb.of_agrees (agrees_of_grows hb h.leads.grows h.size) (fun _ _ => hholds _ nofun)
    (fun _ _ => hholds _ nofun) (fun document range tag htag => ?_)
    (fun _ _ _ _ => hholds _ nofun) (fun _ _ _ => hholds _ nofun) (h.warranted hb.warranted)
  rw [h.holds]
  refine or_iff_left ?_
  rintro ⟨id, hid, heq⟩
  cases heq
  have hrange := (Tagged.delivered htag).mono h.leads.grows.elements
  cases h.leads.sound.graph.label_unique hrange (hids range hid)

/-! ### A new range -/

/-- Nothing is known about a vertex that has not been delivered. -/
theorem not_holds_new (hs : s.Sound faults) {x : ElementId} (hfresh : ∀ e ∈ s.elements, e.id ≠ x) :
    (∀ tag, ¬ s.Holds (.tagged x tag)) ∧ (∀ document, ¬ s.Holds (.contained document x)) ∧
      ∀ target, ¬ s.Holds (.next x target) ∧ ¬ s.Holds (.next target x) := by
  have hnone : ∀ label, ¬ Delivered s.elements label x := by
    rintro label ⟨v, -, hmem⟩
    exact hfresh _ hmem rfl
  refine ⟨fun tag h => hnone _ (Tagged.delivered h), ?_, fun target => ⟨fun h => ?_, fun h => ?_⟩⟩
  · rintro document (⟨file, known, hknown, -, hx⟩ | h)
    · exact hnone _ ((hs.documents file known hknown).ranges x hx)
    · obtain ⟨label, hx⟩ := Contained.delivered hs.graph h
      exact hnone label hx
  · exact (Linked.joins hs.graph h).1.elim (hnone _) (hnone _)
  · exact hnone _ (Linked.joins hs.graph h).2

theorem hub?_delivered (hs : s.Sound faults) {a : RecordId} {v : VertexRef}
    (h : s.hub? a = some v) : Delivered s.elements .resultSet v.id := by
  obtain ⟨r, hr, hv⟩ := Option.bind_eq_some_iff.mp h
  exact (hs.records a.index r hr).resultSet v hv

/-- Records with one handle are one record. -/
theorem Distinct.inj {handle : Record → Option VertexRef} (hd : Distinct handle s.records)
    {a b : RecordId} {v v' : VertexRef} (ha : s.records[a.index]?.bind handle = some v)
    (hb : s.records[b.index]?.bind handle = some v') (hid : v.id = v'.id) : a = b := by
  obtain ⟨r, hr, hv⟩ := Option.bind_eq_some_iff.mp ha
  obtain ⟨r', hr', hv'⟩ := Option.bind_eq_some_iff.mp hb
  have hindex := hd a.index b.index r r' v v' hr hr' hv hv' hid
  cases a
  cases b
  exact congrArg RecordId.mk hindex

theorem hub?_inj (hs : s.Sound faults) {a b : RecordId} {v v' : VertexRef} (ha : s.hub? a = some v)
    (hb : s.hub? b = some v') (hid : v.id = v'.id) : a = b :=
  hs.hubs.inj ha hb hid

theorem citing?_inj (hs : s.Sound faults) {a b : RecordId} {v v' : VertexRef}
    (ha : s.citing? a = some v) (hb : s.citing? b = some v') (hid : v.id = v'.id) : a = b :=
  hs.citing.inj ha hb hid

/-- The facts that a new range with a tag comes to when it is filed under a record. -/
def occurrence (kinds : RecordId → Option RecordKind) (id : RecordId) (kind : RecordKind)
    (hub document range : ElementId) (tag : RangeTag) : Set Fact :=
  {.tagged range tag} ∪ {.contained document range} ∪
    filing kinds id hub document range (tag.role kind) (tag.owned kind)

section Occurrence

variable {kinds : RecordId → Option RecordKind} {id : RecordId} {kind : RecordKind}
  {hub d x : ElementId} {tag : RangeTag}

theorem tagged_mem_occurrence {range : ElementId} {tag' : RangeTag} :
    .tagged range tag' ∈ occurrence kinds id kind hub d x tag ↔ range = x ∧ tag' = tag := by
  constructor
  · rintro ((heq | heq) | heq | ⟨_, _, _, _, heq⟩ | ⟨-, heq⟩) <;> cases heq
    exact ⟨rfl, rfl⟩
  · rintro ⟨rfl, rfl⟩
    exact .inl (.inl rfl)

theorem contained_mem_occurrence {document range : ElementId} :
    .contained document range ∈ occurrence kinds id kind hub d x tag ↔
      document = d ∧ range = x := by
  constructor
  · rintro ((heq | heq) | heq | ⟨_, _, _, _, heq⟩ | ⟨-, heq⟩) <;> cases heq
    exact ⟨rfl, rfl⟩
  · rintro ⟨rfl, rfl⟩
    exact .inl (.inr rfl)

theorem next_mem_occurrence {source target : ElementId} :
    .next source target ∈ occurrence kinds id kind hub d x tag ↔ source = x ∧ target = hub := by
  constructor
  · rintro ((heq | heq) | heq | ⟨_, _, _, _, heq⟩ | ⟨-, heq⟩) <;> cases heq
    exact ⟨rfl, rfl⟩
  · rintro ⟨rfl, rfl⟩
    exact .inr (.inl rfl)

theorem cited_mem_occurrence {i : RecordId} {property : ItemProperty} {document y : ElementId} :
    .cited i property document y ∈ occurrence kinds id kind hub d x tag ↔
      ∃ role, tag.role kind = some role ∧ property = role.property ∧
        Route kinds RecordKind.passesTo id i ∧ document = d ∧ y = x := by
  constructor
  · rintro ((heq | heq) | heq | ⟨role, i', hrole, hroute, heq⟩ | ⟨-, heq⟩) <;> cases heq
    exact ⟨role, hrole, rfl, hroute, rfl, rfl⟩
  · rintro ⟨role, hrole, rfl, hroute, rfl, rfl⟩
    exact .inr (.inr (.inl ⟨role, i, hrole, hroute, rfl⟩))

theorem defined_mem_occurrence {i : RecordId} {document y : ElementId} :
    .defined i document y ∈ occurrence kinds id kind hub d x tag ↔
      tag.owned kind = true ∧ i = id ∧ document = d ∧ y = x := by
  constructor
  · rintro ((heq | heq) | heq | ⟨_, _, _, _, heq⟩ | ⟨howned, heq⟩) <;> cases heq
    exact ⟨howned, rfl, rfl, rfl⟩
  · rintro ⟨howned, rfl, rfl, rfl⟩
    exact .inr (.inr (.inr ⟨howned, rfl⟩))

end Occurrence

section File

variable {id : RecordId} {kind : RecordKind} {v : VertexRef} {d x : ElementId} {tag : RangeTag}

/-- After a new range was filed, it is filed there and nowhere else. -/
theorem filed_new (hs : s.Sound faults) (hb : s.Balanced) (hl : s.Lasting)
    (hv : s.hub? id = some v) (hfresh : ∀ e ∈ s.elements, e.id ≠ x)
    (h : s.Posts faults t (occurrence s.kind? id kind v.id d x tag))
    (a : RecordId) (document range : ElementId) (tag' : RangeTag) :
    t.Filed a document range tag' ↔ s.Filed a document range tag' ∨
      a = id ∧ document = d ∧ range = x ∧ tag' = tag := by
  obtain ⟨hnotag, hnodocument, hnonext⟩ := not_holds_new hs hfresh
  have hhubs := (agrees_of_grows hb h.grows h.size).hubs
  unfold Filed
  rw [hhubs]
  simp only [h.holds hl, tagged_mem_occurrence, contained_mem_occurrence, next_mem_occurrence]
  constructor
  · rintro ⟨htag, hdocument, v', hv', hlead⟩
    by_cases hx : range = x
    · subst hx
      refine .inr ⟨?_, (hdocument.resolve_left (hnodocument _)).1, rfl,
        (htag.resolve_left (hnotag _)).2⟩
      exact hub?_inj hs hv' hv (hlead.resolve_left (hnonext _).1).2
    · exact .inl ⟨htag.resolve_right fun h => hx h.1, hdocument.resolve_right fun h => hx h.2,
        v', hv', hlead.resolve_right fun h => hx h.1⟩
  · rintro (⟨htag, hdocument, v', hv', hlead⟩ | ⟨rfl, rfl, rfl, rfl⟩)
    · exact ⟨.inl htag, .inl hdocument, v', hv', .inl hlead⟩
    · exact ⟨.inr ⟨rfl, rfl⟩, .inr ⟨rfl, rfl⟩, v, hv, .inr ⟨rfl, rfl⟩⟩

/-- **Filing a new range keeps the law.** -/
theorem Balanced.file (hb : s.Balanced) (hs : s.Sound faults) (hl : s.Lasting)
    (hk : s.kind? id = some kind) (hsuits : tag.suits kind = true) (hv : s.hub? id = some v)
    (hfresh : ∀ e ∈ s.elements, e.id ≠ x)
    (h : s.Posts faults t (occurrence s.kind? id kind v.id d x tag)) : t.Balanced := by
  have hagrees := agrees_of_grows hb h.grows h.size
  have hfiled := filed_new hs hb hl hv hfresh h
  obtain ⟨-, -, hnonext⟩ := not_holds_new hs hfresh
  refine
    { begun := ?begun, filed := ?filed, suits := ?suits, single := ?single, leads := ?leads,
      cites := ?cites, defines := ?defines, answers := ?answers, needs := ?needs,
      warranted := h.warranted hl hb.warranted }
  case begun =>
    rw [hagrees.kinds, hagrees.hubs]
    exact hb.begun
  case filed =>
    intro range tag' htag
    rw [h.holds hl, tagged_mem_occurrence] at htag
    rcases htag with htag | ⟨rfl, rfl⟩
    · obtain ⟨a, document, hold⟩ := hb.filed range tag' htag
      exact ⟨a, document, (hfiled a document range tag').mpr (.inl hold)⟩
    · exact ⟨id, d, (hfiled id d range tag').mpr (.inr ⟨rfl, rfl, rfl, rfl⟩)⟩
  case suits =>
    intro a document range tag' kind' hfile hkind
    rw [hagrees.kinds] at hkind
    rcases (hfiled a document range tag').mp hfile with hold | ⟨rfl, -, -, rfl⟩
    · exact hb.suits a document range tag' kind' hold hkind
    · cases hk.symm.trans hkind
      exact hsuits
  case single =>
    -- A new range leads nowhere else.
    intro source target target' h₁ h₂
    rw [h.holds hl, next_mem_occurrence] at h₁ h₂
    rcases h₁ with h₁ | ⟨rfl, rfl⟩
    · rcases h₂ with h₂ | ⟨rfl, -⟩
      · exact hb.single source target target' h₁ h₂
      · exact absurd h₁ (hnonext target).1
    · rcases h₂ with h₂ | ⟨-, rfl⟩
      · exact absurd h₂ (hnonext target').1
      · rfl
  case leads =>
    -- No result set leads on that did not before: the new range is none.
    intro a v' hv' target
    rw [hagrees.hubs] at hv'
    have hne : v'.id ≠ x := by
      rintro rfl
      obtain ⟨vertex, -, hmem⟩ := hub?_delivered hs hv'
      exact hfresh _ hmem rfl
    rw [h.holds hl, next_mem_occurrence, or_iff_left fun h => hne h.1, hagrees.kinds, hagrees.hubs]
    exact hb.leads a v' hv' target
  case cites =>
    intro i role document y
    rw [h.holds hl, hb.cites, cited_mem_occurrence, hagrees.kinds]
    simp only [hfiled]
    constructor
    · rintro (⟨a, kind', tag', hold, hrest⟩ | ⟨role', hrole, hproperty, hroute, rfl, rfl⟩)
      · exact ⟨a, kind', tag', .inl hold, hrest⟩
      · cases ReferenceRole.property_inj hproperty
        exact ⟨id, kind, tag, .inr ⟨rfl, rfl, rfl, rfl⟩, hk, hrole, hroute⟩
    · rintro ⟨a, kind', tag', hold | ⟨rfl, rfl, rfl, rfl⟩, hkind, hrole, hroute⟩
      · exact .inl ⟨a, kind', tag', hold, hkind, hrole, hroute⟩
      · cases hk.symm.trans hkind
        exact .inr ⟨role, hrole, rfl, hroute, rfl, rfl⟩
  case defines =>
    intro i document y
    rw [h.holds hl, hb.defines, defined_mem_occurrence, hagrees.kinds]
    simp only [hfiled]
    constructor
    · rintro (⟨kind', tag', hold, hrest⟩ | ⟨howned, rfl, rfl, rfl⟩)
      · exact ⟨kind', tag', .inl hold, hrest⟩
      · exact ⟨kind, tag, .inr ⟨rfl, rfl, rfl, rfl⟩, hk, howned⟩
    · rintro ⟨kind', tag', hold | ⟨rfl, rfl, rfl, rfl⟩, hkind, howned⟩
      · exact .inl ⟨kind', tag', hold, hkind, howned⟩
      · cases hk.symm.trans hkind
        exact .inr ⟨howned, rfl, rfl, rfl⟩
  case answers =>
    -- A range is no reference result.
    intro i y
    rw [hagrees.answers, ← hb.answers]
    refine exists_congr fun document => ?_
    rw [h.holds hl, cited_mem_occurrence]
    refine or_iff_left ?_
    rintro ⟨role, -, hproperty, -⟩
    exact role.property_ne hproperty.symm
  case needs =>
    intro a ha
    rw [hagrees.needs] at ha
    rw [hagrees.citing a ha]
    exact hb.needs a ha

/-- A range is tagged, then its document has it, then it is filed. -/
theorem Balanced.file_steps {t₁ t₂ t₃ : Store} (hb : s.Balanced) (hs : s.Sound faults)
    (hl : s.Lasting) (hk : s.kind? id = some kind) (hfresh : ∀ e ∈ s.elements, e.id ≠ x)
    (h₁ : s.Posts faults t₁ {.tagged x tag}) (hsuits : tag.suits kind = true)
    (h₂ : t₁.Posts faults t₂ {.contained d x})
    (hv : t₂.hub? id = some v)
    (h₃ : t₂.Posts faults t₃ (filing t₂.kind? id v.id d x (tag.role kind) (tag.owned kind))) :
    t₃.Balanced := by
  obtain ⟨v', hv'⟩ := hb.begun id kind hk
  have h₁₂ := h₁.trans h₂
  cases (h₁₂.grows.hub? hv').symm.trans hv
  rw [h₁₂.kinds] at h₃
  exact hb.file hs hl hk hsuits hv' hfresh (h₁₂.trans h₃)

end File

/-! ### A new record -/

section Open

variable {kind : RecordKind} {scope : Option NodeId} {hub : VertexRef} {facts : Set Fact}

theorem lt_of_kind? {a : RecordId} (h : s.kind? a = some kind) : a.index < s.records.size := by
  obtain ⟨r, hr, -⟩ := Option.map_eq_some_iff.mp h
  exact (Array.getElem?_eq_some_iff.mp hr).1

theorem kind?_of_hub? {a : RecordId} {v : VertexRef} (h : s.hub? a = some v) :
    ∃ kind, s.kind? a = some kind := by
  obtain ⟨r, hr, -⟩ := Option.bind_eq_some_iff.mp h
  exact ⟨r.kind, kind?_of_record hr⟩

/-- A store with one more record, tied to those it passes on to. -/
structure Extended (s t : Store) (kind : RecordKind) (hub : VertexRef) (facts : Set Fact) : Prop
    where
  kinds  : ∀ a, t.kind? a = if a = s.nextRecord then some kind else s.kind? a
  hubs   : ∀ a, t.hub? a = if a = s.nextRecord then some hub else s.hub? a
  citing : ∀ a, s.Needs a → t.citing? a = s.citing? a
  fresh  : ∀ e ∈ s.elements, e.id ≠ hub.id
  holds  : ∀ fact, t.Holds fact ↔ s.Holds fact ∨ fact ∈ facts
  tied   : s.Tied t kind hub.id facts

theorem extended_of_opened (hb : s.Balanced) (ho : s.Opened faults u kind scope hub)
    (hp : u.Posts faults t facts) (hl : u.Lasting) (htied : s.Tied t kind hub.id facts) :
    s.Extended t kind hub facts := by
  have hkinds : ∀ a, t.kind? a = if a = s.nextRecord then some kind else s.kind? a := by
    intro a
    rw [hp.kinds]
    exact ho.kinds a
  refine ⟨hkinds, fun a => ?_, fun a ha => ?_, ho.fresh, fun fact => ?_, htied⟩
  · split
    · rename_i ha
      refine hp.grows.hub? ?_
      rw [ho.hubs, if_pos ha]
    · rename_i ha
      cases hk : s.kind? a with
      | some known =>
          obtain ⟨v, hv⟩ := hb.begun a known hk
          rw [hv]
          refine hp.grows.hub? ?_
          rw [ho.hubs, if_neg ha, hv]
      | none =>
          rw [hub?_eq_none hk, hub?_eq_none]
          rw [hkinds, if_neg ha]
          exact hk
  · obtain ⟨v, hv⟩ := hb.needs a ha
    rw [hv]
    exact (ho.leads.grows.trans hp.grows).citing? hv
  · rw [hp.holds hl, ho.holds]

namespace Extended

variable (h : s.Extended t kind hub facts)

include h

theorem kind_old {a : RecordId} {known : RecordKind} (ha : s.kind? a = some known) :
    t.kind? a = some known := by
  rw [h.kinds, if_neg]
  · exact ha
  · rintro rfl
    rw [kind?_nextRecord] at ha
    cases ha

theorem hub_old {a : RecordId} {v : VertexRef} (ha : s.hub? a = some v) : t.hub? a = some v := by
  rw [h.hubs, if_neg]
  · exact ha
  · rintro rfl
    rw [hub?_nextRecord] at ha
    cases ha

/-- Older records are of the kind they were. -/
theorem kind_iff {a : RecordId} {known : RecordKind} (ha : a.index < s.records.size) :
    t.kind? a = some known ↔ s.kind? a = some known := by
  rw [h.kinds, if_neg]
  rintro rfl
  exact Nat.lt_irrefl _ ha

/-- The result sets of older records are as before. -/
theorem hub_iff {a : RecordId} {v : VertexRef} (ha : a.index < s.records.size) :
    t.hub? a = some v ↔ s.hub? a = some v := by
  rw [h.hubs, if_neg]
  rintro rfl
  exact Nat.lt_irrefl _ ha

/-- The routes from older records are as before. -/
theorem route (hs : s.Sound faults) {passes : RecordKind → Option (List RecordId)}
    (hpasses : ∀ known ids, passes known = some ids → known.passesTo = some ids) {a c : RecordId}
    (ha : a.index < s.records.size) :
    Route t.kind? passes a c ↔ Route s.kind? passes a c := by
  refine Route.congr (n := s.records.size) (fun b hb => ?_) (fun b known hk ids hids =>
    hs.descending b known hk ids (hpasses known ids hids)) ha
  rw [h.kinds, if_neg]
  rintro rfl
  exact Nat.lt_irrefl _ hb

/-- A new record only adds what it is tied by. -/
theorem holds_old (fact : Fact) (hnext : ∀ source target, fact ≠ .next source target)
    (hcited : ∀ i document x, fact ≠ .cited i .referenceResults document x) :
    t.Holds fact ↔ s.Holds fact := by
  rw [h.holds]
  refine or_iff_left fun hfact => ?_
  rcases h.tied.only fact hfact with ⟨source, target, heq⟩ | ⟨i, document, x, heq⟩
  · exact hnext source target heq
  · exact hcited i document x heq

/-- No range is filed under a new record. -/
theorem filed (hs : s.Sound faults) (a : RecordId) (document range : ElementId) (tag : RangeTag) :
    t.Filed a document range tag ↔ s.Filed a document range tag := by
  unfold Filed
  rw [h.holds_old (.tagged range tag) nofun nofun,
    h.holds_old (.contained document range) nofun nofun]
  refine and_congr_right fun htag => and_congr_right fun _ => ⟨?_, ?_⟩
  · rintro ⟨v, hv, hnext⟩
    rw [h.holds, h.tied.next] at hnext
    rw [h.hubs] at hv
    have hrange : range ≠ hub.id := by
      rintro rfl
      exact (not_holds_new hs h.fresh).1 tag htag
    have hnext : s.Holds (.next range v.id) := hnext.resolve_right fun hnew => hrange hnew.1
    split at hv
    · cases hv
      exact absurd hnext ((not_holds_new hs h.fresh).2.2 range).2
    · exact ⟨v, hv, hnext⟩
  · rintro ⟨v, hv, hnext⟩
    exact ⟨v, h.hub_old hv, (h.holds _).mpr (.inl hnext)⟩

/-- The reference results that are cited are those cited before and those that the new record
adds. -/
theorem answers (hs : s.Sound faults) (hdescends : ∀ ids, kind.passesTo = some ids →
      ∀ id ∈ ids, id.index < s.records.size) (i : RecordId) (x : ElementId) :
    t.Answers i x ↔ s.Answers i x ∨
      ∃ document, .cited i .referenceResults document x ∈ facts := by
  have hroute : ∀ {b : RecordId}, b.index < s.records.size →
      (Route t.kind? RecordKind.aliasOf b i ↔ Route s.kind? RecordKind.aliasOf b i) :=
    fun hb => h.route hs (fun known ids => RecordKind.passesTo_of_aliasOf) hb
  have hbases : ∀ {m : RecordId} {base : RecordId} {bases : List RecordId} {anchor : FileId}
      {b : RecordId}, s.kind? m = some (.method (base :: bases) anchor) → b ∈ base :: bases →
      b.index < s.records.size := fun hm hb =>
    Nat.lt_trans (hs.descending _ _ hm _ rfl _ hb) (lt_of_kind? hm)
  rw [h.tied.answers]
  constructor
  -- An answer goes through a method or a union: an old one answered before, the new one is what
  -- `facts` cites.
  · rintro (⟨m, base, bases, anchor, b, v, hm, hb, hr, hv, rfl⟩ |
      ⟨elements, anchor, e, v, hi, he, hv, rfl⟩)
    · rw [h.kinds] at hm
      split at hm
      · rename_i hnew
        cases hm
        subst hnew
        exact .inr (.inl ⟨base, bases, anchor, b, v, rfl, hb,
          (hroute (hdescends _ rfl b hb)).mp hr, hv, rfl⟩)
      · rw [h.citing m (.inl ⟨base, bases, anchor, hm⟩)] at hv
        exact .inl (.inl ⟨m, base, bases, anchor, b, v, hm, hb, (hroute (hbases hm hb)).mp hr, hv,
          rfl⟩)
    · rw [h.kinds] at hi
      split at hi
      · rename_i hnew
        cases hi
        exact .inr (.inr ⟨elements, anchor, e, v, rfl, hnew, he, hv, rfl⟩)
      · rw [h.citing e (.inr ⟨i, elements, anchor, hi, he⟩)] at hv
        exact .inl (.inr ⟨elements, anchor, e, v, hi, he, hv, rfl⟩)
  -- Old answers stay, since no old record has changed its kind or its result.
  · rintro ((⟨m, base, bases, anchor, b, v, hm, hb, hr, hv, rfl⟩ |
        ⟨elements, anchor, e, v, hi, he, hv, rfl⟩) |
      ⟨base, bases, anchor, b, v, rfl, hb, hr, hv, rfl⟩ |
      ⟨elements, anchor, e, v, rfl, rfl, he, hv, rfl⟩)
    · refine .inl ⟨m, base, bases, anchor, b, v, h.kind_old hm, hb,
        (hroute (hbases hm hb)).mpr hr, ?_, rfl⟩
      rw [h.citing m (.inl ⟨base, bases, anchor, hm⟩)]
      exact hv
    · refine .inr ⟨elements, anchor, e, v, h.kind_old hi, he, ?_, rfl⟩
      rw [h.citing e (.inr ⟨i, elements, anchor, hi, he⟩)]
      exact hv
    · refine .inl ⟨s.nextRecord, base, bases, anchor, b, v, ?_, hb,
        (hroute (hdescends _ rfl b hb)).mpr hr, hv, rfl⟩
      rw [h.kinds, if_pos rfl]
    · refine .inr ⟨elements, anchor, e, v, ?_, he, hv, rfl⟩
      rw [h.kinds, if_pos rfl]

/-- A result set leads on from an alias, to the result set of the target. -/
theorem leads (hb : s.Balanced) (hs : s.Sound faults) (hdescends : ∀ ids,
      kind.passesTo = some ids → ∀ id ∈ ids, id.index < s.records.size) (a : RecordId)
    (v : VertexRef) (hv : t.hub? a = some v) (target : ElementId) :
    t.Holds (.next v.id target) ↔ ∃ b renames v', t.kind? a = some (.aliased b renames) ∧
      t.hub? b = some v' ∧ v'.id = target := by
  obtain ⟨-, -, hnonext⟩ := not_holds_new hs h.fresh
  -- The new hub starts edges to its targets alone; an old one starts what it did, since its id
  -- differs from the fresh one.
  rw [h.hubs] at hv
  rw [h.holds, h.tied.next, h.kinds]
  split at hv
  · rename_i hnew
    cases hv
    rw [if_pos hnew, or_iff_right (hnonext target).1]
    constructor
    · rintro ⟨-, b, renames, v, rfl, hv, rfl⟩
      exact ⟨b, renames, v, rfl, h.hub_old hv, rfl⟩
    · rintro ⟨b, renames, v, hknown, hv, rfl⟩
      cases hknown
      exact ⟨rfl, b, renames, v, rfl,
        (h.hub_iff (hdescends [b] rfl b (List.mem_singleton_self _))).mp hv, rfl⟩
  · rename_i hold
    have hne : v.id ≠ hub.id := by
      intro heq
      obtain ⟨vertex, -, hmem⟩ := hub?_delivered hs hv
      exact h.fresh _ hmem heq
    rw [if_neg hold, or_iff_left fun hnew => hne hnew.1, hb.leads a v hv]
    refine exists_congr fun b => exists_congr fun renames => exists_congr fun v' =>
      and_congr_right fun hknown => ?_
    have hb' := hs.descending a _ hknown [b] rfl b (List.mem_singleton_self _)
    rw [h.hub_iff (Nat.lt_trans hb' (lt_of_kind? hknown))]

/-- Where there are results there is need of them. -/
theorem needs (hb : s.Balanced) {a : RecordId} (ha : t.Needs a) : ∃ v, t.citing? a = some v := by
  have hold : s.Needs a → ∃ v, t.citing? a = some v := by
    intro ha
    obtain ⟨v, hv⟩ := hb.needs a ha
    exact ⟨v, (h.citing a ha).trans hv⟩
  rcases ha with ⟨base, bases, anchor, ha⟩ | ⟨shared, elements, anchor, ha, hmem⟩
  · rw [h.kinds] at ha
    split at ha
    · rename_i hnew
      cases ha
      rw [hnew]
      exact h.tied.overrides base bases anchor rfl
    · exact hold (.inl ⟨base, bases, anchor, ha⟩)
  · rw [h.kinds] at ha
    split at ha
    · cases ha
      exact h.tied.shares elements anchor rfl a hmem
    · exact hold (.inr ⟨shared, elements, anchor, ha, hmem⟩)

end Extended

/-- **A new record keeps the law.** -/
theorem Balanced.open (hb : s.Balanced) (hs : s.Sound faults) (h : s.Extended t kind hub facts)
    (hdescends : ∀ ids, kind.passesTo = some ids → ∀ id ∈ ids, id.index < s.records.size)
    (hw : t.Warranted) : t.Balanced := by
  have hfiled := h.filed hs
  obtain ⟨-, -, hnonext⟩ := not_holds_new hs h.fresh
  -- Ranges are filed under older records, and these are as before.
  have hrecord : ∀ {a : RecordId} {document range : ElementId} {tag : RangeTag},
      s.Filed a document range tag → a.index < s.records.size := by
    rintro a document range tag ⟨-, -, v, hv, -⟩
    obtain ⟨known, hknown⟩ := kind?_of_hub? hv
    exact lt_of_kind? hknown
  refine
    { begun := ?begun, filed := ?filed, suits := ?suits, single := ?single,
      leads := h.leads hb hs hdescends, cites := ?cites, defines := ?defines, answers := ?answers,
      needs := fun a => h.needs hb, warranted := hw }
  case begun =>
    intro a known ha
    rw [h.kinds] at ha
    rw [h.hubs]
    split at ha
    · rename_i hnew
      exact ⟨hub, if_pos hnew⟩
    · rename_i hold
      obtain ⟨v, hv⟩ := hb.begun a known ha
      exact ⟨v, (if_neg hold).trans hv⟩
  case filed =>
    intro range tag htag
    rw [h.holds_old (.tagged range tag) nofun nofun] at htag
    obtain ⟨a, document, hold⟩ := hb.filed range tag htag
    exact ⟨a, document, (hfiled a document range tag).mpr hold⟩
  case suits =>
    intro a document range tag known hfile hknown
    have hold := (hfiled a document range tag).mp hfile
    exact hb.suits a document range tag known hold ((h.kind_iff (hrecord hold)).mp hknown)
  case single =>
    -- The new result set is the source of what is new, and was the source of nothing.
    intro source target target' h₁ h₂
    rw [h.holds, h.tied.next] at h₁ h₂
    rcases h₁ with h₁ | ⟨rfl, b, renames, v, hb₁, hv, rfl⟩
    · rcases h₂ with h₂ | ⟨rfl, -⟩
      · exact hb.single source target target' h₁ h₂
      · exact absurd h₁ (hnonext target).1
    · rcases h₂ with h₂ | ⟨-, b', renames', v', hb₂, hv', rfl⟩
      · exact absurd h₂ (hnonext target').1
      · cases hb₁.symm.trans hb₂
        cases hv.symm.trans hv'
        rfl
  case cites =>
    intro i role document x
    rw [h.holds_old (.cited i role.property document x) nofun
      fun _ _ _ heq => role.property_ne (Fact.cited.inj heq).2.1, hb.cites]
    refine exists_congr fun a => exists_congr fun known => exists_congr fun tag => ?_
    rw [hfiled]
    refine and_congr_right fun hold => ?_
    rw [h.kind_iff (hrecord hold), h.route hs (fun _ _ hids => hids) (hrecord hold)]
  case defines =>
    intro i document x
    rw [h.holds_old (.defined i document x) nofun nofun, hb.defines]
    refine exists_congr fun known => exists_congr fun tag => ?_
    rw [hfiled]
    exact and_congr_right fun hold => by rw [h.kind_iff (hrecord hold)]
  case answers =>
    intro i x
    rw [h.answers hs hdescends, ← hb.answers]
    simp only [h.holds, exists_or]

end Open

end Store

end SymbolGraph
