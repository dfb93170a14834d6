import Mathlib.Data.List.Chain
import SymbolGraph.Proofs.Graph.Reading

/-!
# Proofs — Graph — following `next`

A reader follows first `next` edges with a bound on how far to go.  The bound is of no concern, also
where the edges lead around in a circle: there is as much fuel as there are edges, and every vertex
that is followed for the first time uses one up.  So a chain ends where there is no further edge, or
none to a new vertex.

* `Query.FirstLink`: the first link of a kind from a vertex.
* `Query.Followed`: first `next` edges, followed until there is none or it would lead back.
  `Query.nextChain_eq_iff`: a chain is what is followed.
* `Query.Chain`: the vertices that follow one another, to the end.  `Query.firstResult_eq`: the first
  result is looked for along all of them.
-/

namespace SymbolGraph.Query

variable {elements : List Element}

/-! ### First links -/

/-- The first link of a kind from one vertex leads to another. -/
def FirstLink (elements : List Element) (kind : LinkKind) (source target : ElementId) : Prop :=
  ∃ before n after, elements = before ++ .edge n (.link kind source target) :: after ∧
    ∀ other, ¬ Linked before kind source other

theorem firstTarget_append {earlier later : List Element} {id : ElementId} {kind : LinkKind} :
    firstTarget (earlier ++ later) id kind =
      (firstTarget earlier id kind).or (firstTarget later id kind) := by
  have hout : outgoing (earlier ++ later) id (.link kind) =
      outgoing earlier id (.link kind) ++ outgoing later id (.link kind) := by
    simp [outgoing]
  cases hearlier : outgoing earlier id (.link kind) with
  | nil => simp [firstTarget, hout, hearlier]
  | cons e rest =>
      have hmem : e ∈ outgoing earlier id (.link kind) := by
        rw [hearlier]
        exact List.mem_cons_self
      obtain ⟨target, rfl, -⟩ := mem_outgoing_link.mp hmem
      simp [firstTarget, hout, hearlier, Edge.targets]

/-- The first target is where the first link leads. -/
theorem firstTarget_eq_some_iff {source target : ElementId} {kind : LinkKind} :
    firstTarget elements source kind = some target ↔ FirstLink elements kind source target := by
  constructor
  · intro h
    -- The induction is on the elements: either the first is the link, or it is none with that
    -- source and kind.
    induction elements with
    | nil => cases h
    | cons e elements ih =>
        rw [← List.singleton_append, firstTarget_append] at h
        cases hfirst : firstTarget [e] source kind with
        | some target' =>
            obtain ⟨n, hmem⟩ := linked_of_firstTarget hfirst
            rw [hfirst, Option.some_or] at h
            cases h
            rw [← List.mem_singleton.mp hmem]
            exact ⟨[], n, elements, rfl, by simp [Linked]⟩
        | none =>
            rw [hfirst, Option.none_or] at h
            obtain ⟨before, n, after, rfl, hbefore⟩ := ih h
            refine ⟨e :: before, n, after, rfl, fun other hother => ?_⟩
            rw [← List.singleton_append, linked_append] at hother
            exact hother.elim (firstTarget_eq_none.mp hfirst other) (hbefore other)
  · rintro ⟨before, n, after, rfl, hbefore⟩
    rw [firstTarget_append, firstTarget_eq_none.mpr hbefore, Option.none_or,
      ← List.singleton_append, firstTarget_append,
      firstTarget_eq_some ⟨n, List.mem_singleton_self _⟩ (by simp [Linked])]
    rfl

/-! ### Following `next` -/

/-- What is met from `current` on by first `next` edges, until there is none or it leads to what was
`seen` or met before. -/
structure Trail (elements : List Element) (seen : List ElementId) (current : ElementId)
    (later : List ElementId) : Prop where
  steps : List.IsChain (FirstLink elements .next) (current :: later)
  once  : later.Nodup
  new   : ∀ x ∈ later, x ∉ seen
  ends  : ∀ last ∈ (current :: later).getLast?, ∀ target, FirstLink elements .next last target →
    target ∈ seen ∨ target ∈ later

/-- A vertex and what follows it by first `next` edges, until there is none or it would repeat. -/
structure Followed (elements : List Element) (start : ElementId) (chain : List ElementId) :
    Prop where
  begins : chain.head? = some start
  steps  : List.IsChain (FirstLink elements .next) chain
  once   : chain.Nodup
  ends   : ∀ last ∈ chain.getLast?, ∀ target, FirstLink elements .next last target →
    target ∈ chain

section Trail

variable {seen later : List ElementId} {current target : ElementId}

theorem trail_nil : Trail elements seen current [] ↔
    ∀ target, FirstLink elements .next current target → target ∈ seen := by
  constructor
  · intro h target hfirst
    simpa using h.ends current rfl target hfirst
  · intro h
    refine ⟨.singleton _, .nil, nofun, fun last hlast target hfirst => .inl ?_⟩
    cases hlast
    exact h target hfirst

theorem trail_cons : Trail elements seen current (target :: later) ↔
    FirstLink elements .next current target ∧ target ∉ seen ∧
      Trail elements (target :: seen) target later := by
  constructor
  · intro h
    obtain ⟨hfirst, hsteps⟩ := List.isChain_cons_cons.mp h.steps
    obtain ⟨htarget, honce⟩ := List.nodup_cons.mp h.once
    refine ⟨hfirst, h.new target List.mem_cons_self, hsteps, honce, fun x hx hmem => ?_,
      fun last hlast next hnext => ?_⟩
    · rcases List.mem_cons.mp hmem with rfl | hmem
      · exact htarget hx
      · exact h.new x (List.mem_cons_of_mem _ hx) hmem
    · have hends := h.ends last (by rwa [List.getLast?_cons_cons]) next hnext
      simp only [List.mem_cons] at hends ⊢
      tauto
  · rintro ⟨hfirst, hnew, h⟩
    refine ⟨List.isChain_cons_cons.mpr ⟨hfirst, h.steps⟩,
      List.nodup_cons.mpr ⟨fun hmem => ?_, h.once⟩, fun x hx => ?_, fun last hlast next hnext => ?_⟩
    · exact h.new target hmem List.mem_cons_self
    · rcases List.mem_cons.mp hx with rfl | hx
      · exact hnew
      · exact fun hmem => h.new x hx (List.mem_cons_of_mem _ hmem)
    · have hends := h.ends last (by rwa [List.getLast?_cons_cons] at hlast) next hnext
      simp only [List.mem_cons] at hends ⊢
      tauto

/-- A chain is followed when it begins with its vertex and goes on as a trail from there. -/
theorem followed_iff {start : ElementId} {chain : List ElementId} :
    Followed elements start chain ↔
      ∃ later, chain = start :: later ∧ Trail elements [start] start later := by
  constructor
  · rintro ⟨hbegins, hsteps, honce, hends⟩
    obtain ⟨later, rfl⟩ := List.head?_eq_some_iff.mp hbegins
    obtain ⟨hstart, hlater⟩ := List.nodup_cons.mp honce
    refine ⟨later, rfl, hsteps, hlater, fun x hx hmem => ?_, fun last hlast target hfirst => ?_⟩
    · rw [List.mem_singleton.mp hmem] at hx
      exact hstart hx
    · rw [List.mem_singleton, ← List.mem_cons]
      exact hends last hlast target hfirst
  · rintro ⟨later, rfl, h⟩
    refine ⟨rfl, h.steps, List.nodup_cons.mpr ⟨fun hmem => ?_, h.once⟩,
      fun last hlast target hfirst => ?_⟩
    · exact h.new start hmem (List.mem_singleton_self start)
    · rw [List.mem_cons, ← List.mem_singleton]
      exact h.ends last hlast target hfirst

/-! ### Why following ends -/

/-- Whether an element is a `next` edge to a vertex that was not seen. -/
def ahead (seen : List ElementId) : Element → Bool
  | .edge _ (.link .next _ target) => target ∉ seen
  | _                              => false

/-- A vertex that is followed for the first time is no longer ahead. -/
theorem countP_ahead_lt (h : Linked elements .next current target) (hnew : target ∉ seen) :
    elements.countP (ahead (target :: seen)) < elements.countP (ahead seen) := by
  have hle : ∀ es : List Element, es.countP (ahead (target :: seen)) ≤ es.countP (ahead seen) := by
    intro es
    refine List.countP_mono_left fun e _ he => ?_
    unfold ahead at he ⊢
    split at he
    · exact decide_eq_true fun hmem => of_decide_eq_true he (List.mem_cons_of_mem _ hmem)
    · cases he
  obtain ⟨n, hmem⟩ := h
  obtain ⟨before, after, rfl⟩ := List.append_of_mem hmem
  have hbefore := hle before
  have hafter := hle after
  have hcounted : ahead seen (.edge n (.link .next current target)) = true := decide_eq_true hnew
  have hpassed : ¬ ahead (target :: seen) (.edge n (.link .next current target)) = true :=
    fun hahead => of_decide_eq_true hahead List.mem_cons_self
  rw [List.countP_append, List.countP_append, List.countP_cons_of_pos hcounted,
    List.countP_cons_of_neg hpassed]
  omega

/-- Where whatever follows was seen, a trail ends. -/
theorem nil_eq_iff_trail
    (hseen : ∀ target, FirstLink elements .next current target → target ∈ seen) :
    [] = later ↔ Trail elements seen current later := by
  cases later with
  | nil => exact ⟨fun _ => trail_nil.mpr hseen, fun _ => rfl⟩
  | cons target later =>
      refine ⟨nofun, fun h => ?_⟩
      obtain ⟨hfirst, hnew, -⟩ := trail_cons.mp h
      exact absurd (hseen target hfirst) hnew

/-- With as much fuel as there are edges ahead, a chain ends for the reasons that a trail has. -/
theorem chainWithin_eq_iff {fuel : Nat} (hfuel : elements.countP (ahead seen) ≤ fuel) :
    chainWithin elements fuel seen current = later ↔ Trail elements seen current later := by
  induction fuel generalizing seen current later with
  | zero =>
      refine nil_eq_iff_trail fun target hfirst => ?_
      by_contra hnew
      have hlt := countP_ahead_lt (linked_of_firstTarget (firstTarget_eq_some_iff.mpr hfirst)) hnew
      omega
  | succ fuel ih =>
      unfold chainWithin
      cases hnext : firstTarget elements current .next with
      | none =>
          refine nil_eq_iff_trail fun target hfirst => ?_
          rw [firstTarget_eq_some_iff.mpr hfirst] at hnext
          cases hnext
      | some next =>
          -- There is one first link only.
          have hsame : ∀ target, FirstLink elements .next current target → target = next := by
            intro target hfirst
            rw [firstTarget_eq_some_iff.mpr hfirst] at hnext
            exact Option.some.inj hnext
          dsimp only
          split
          · rename_i hold
            exact nil_eq_iff_trail fun target hfirst => hsame target hfirst ▸ hold
          · rename_i hnew
            have hfirst := firstTarget_eq_some_iff.mp hnext
            have hlt := countP_ahead_lt (linked_of_firstTarget hnext) hnew
            have hrest : ∀ {later}, _ ↔ Trail elements (next :: seen) next later :=
              ih (by omega)
            cases later with
            | nil =>
                refine ⟨nofun, fun h => ?_⟩
                exact absurd (trail_nil.mp h next hfirst) hnew
            | cons target later =>
                rw [List.cons.injEq, trail_cons, hrest]
                constructor
                · rintro ⟨rfl, h⟩
                  exact ⟨hfirst, hnew, h⟩
                · rintro ⟨hfirst', -, h⟩
                  cases hsame target hfirst'
                  exact ⟨rfl, h⟩

end Trail

/-- **A chain is what is followed**: it ends where there is no `next` edge, or none to a new
vertex. -/
theorem nextChain_eq_iff {start : ElementId} {chain : List ElementId} :
    nextChain elements start = chain ↔ Followed elements start chain := by
  rw [followed_iff]
  unfold nextChain
  constructor
  · rintro rfl
    exact ⟨_, rfl, (chainWithin_eq_iff List.countP_le_length).mp rfl⟩
  · rintro ⟨later, rfl, h⟩
    rw [(chainWithin_eq_iff List.countP_le_length).mpr h]

/-! ### Chains that do not lead back -/

/-- The vertices that follow a vertex by first `next` edges, to the end. -/
inductive Chain (elements : List Element) : ElementId → List ElementId → Prop
  | ends {id : ElementId} : firstTarget elements id .next = none → Chain elements id []
  | next {id target : ElementId} {later : List ElementId} :
      firstTarget elements id .next = some target → Chain elements target later →
        Chain elements id (target :: later)

/-- A chain of vertices that do not repeat is a trail. -/
theorem Chain.trail {id : ElementId} {seen later : List ElementId} (h : Chain elements id later)
    (hnodup : later.Nodup) (hseen : ∀ x ∈ later, x ∉ seen) : Trail elements seen id later := by
  induction h generalizing seen with
  | ends hnone =>
      refine trail_nil.mpr fun target hfirst => ?_
      cases hnone.symm.trans (firstTarget_eq_some_iff.mpr hfirst)
  | @next id target later hfirst _ ih =>
      obtain ⟨htarget, hnodup⟩ := List.nodup_cons.mp hnodup
      refine trail_cons.mpr ⟨firstTarget_eq_some_iff.mp hfirst, hseen target List.mem_cons_self,
        ih hnodup fun x hx hmem => ?_⟩
      -- The target is seen from now on, and does not come again.
      rcases List.mem_cons.mp hmem with rfl | hmem
      · exact htarget hx
      · exact hseen x (List.mem_cons_of_mem _ hx) hmem

/-- **The first result is looked for along the whole chain**, if that does not lead back. -/
theorem firstResult_eq {id : ElementId} {later : List ElementId} (h : Chain elements id later)
    (hnodup : (id :: later).Nodup) (kind : LinkKind) :
    firstResult elements id kind =
      (id :: later).findSome? fun v => firstTarget elements v kind := by
  obtain ⟨hid, hlater⟩ := List.nodup_cons.mp hnodup
  have htrail : Trail elements [id] id later := by
    refine h.trail hlater fun x hx hmem => ?_
    rw [List.mem_singleton.mp hmem] at hx
    exact hid hx
  rw [firstResult, nextChain_eq_iff.mpr (followed_iff.mpr ⟨later, rfl, htrail⟩)]

end SymbolGraph.Query
