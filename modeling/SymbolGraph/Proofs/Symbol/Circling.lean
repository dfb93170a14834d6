import SymbolGraph.Proofs.Symbol.Sweeping

/-!
# Proofs — Symbol — members of supertypes after other questions

What a question notes on its way is there for the next one.  In a circle some of it is too little: the
symbols behind the one at which the circle was entered are left with what was found before the search
came back.  So an answer never has too much, and it has everything unless the way to it leads to a
circle that another question was at before.

* `Symbols.Reliable`: what is noted after questions is no more than what is to be found, and less only
  above a circle that one of them came upon.
* `Symbols.findBaseMembers_alike`: when an answer is that of new tables.
* `Symbols.not_forall_findBaseMembers_alike`: two interfaces that extend each other, of which the one
  that is asked for last loses its method.
-/

namespace SymbolGraph.Symbols

variable {p : Program} {play : Set SymbolRef} {name : String} {a : SymbolRef} {s : Symbols}
  {earlier later inquiries : List Inquiry} {inquiry : Inquiry}

/-- After questions, what is noted is no more than what is to be found, and all of it, unless it is
about a symbol below a circle that one of the questions came upon. -/
structure Reliable (p : Program) (play : Set SymbolRef) (inquiries : List Inquiry) (s : Symbols) :
    Prop where
  fair    : ∀ name, s.Fair p play name
  settled : ∀ name, ∀ a ∈ play, ∀ members, s.noted p name a = some members →
    p.Complete name a members ∨ ∃ q, .members q name ∈ inquiries ∧ p.SharesCircle name q a

/-! ### One question -/

/-- What a question for members finds when it is asked. -/
theorem Reliable.sought (h : Reliable p play inquiries s) (hplay : p.Separates play) (ha : a ∈ play)
    (name : String) :
    Sought p play name {q | .members q name ∈ inquiries ++ [.members a name]} s a
      (findBaseMembers p a name s) := by
  refine findBaseMembers_sought hplay ha (by simp) ⟨h.fair name, fun b hb members hnoted => ?_⟩
  rcases h.settled name b hb members hnoted with hcomplete | ⟨q, hq, hshares⟩
  · exact .inl hcomplete
  · exact .inr (.inl ⟨q, List.mem_append_left _ hq, hshares⟩)

theorem Reliable.more (h : Reliable p play inquiries s) (inquiry : Inquiry) :
    Reliable p play (inquiries ++ [inquiry]) s where
  fair := h.fair
  settled name a ha members hnoted :=
    (h.settled name a ha members hnoted).imp_right fun ⟨q, hq, hshares⟩ =>
      ⟨q, List.mem_append_left _ hq, hshares⟩

/-- A question keeps what is noted. -/
theorem Reliable.kept (h : Reliable p play inquiries s) (hplay : p.Separates play)
    (hsymbol : inquiry.symbol ∈ play) (entry : SymbolKey × String)
    (members : Option (List SymbolRef)) (hentry : s.baseMembers.get? entry = some members) :
    (inquiry.ask p s).2.baseMembers.get? entry = some members := by
  cases inquiry with
  | bases symbol =>
      have hsame : (baseSymbolsOf p symbol s).2.baseMembers = s.baseMembers :=
        (baseSymbolsOf_searched hplay hsymbol (h.fair "")).2.1
      exact hsame ▸ hentry
  | members symbol name => exact (h.sought hplay hsymbol name).searched.kept entry members hentry

/-- **A question leaves what is noted reliable.** -/
theorem Reliable.ask (h : Reliable p play inquiries s) (hplay : p.Separates play)
    (hsymbol : inquiry.symbol ∈ play) :
    Reliable p play (inquiries ++ [inquiry]) (inquiry.ask p s).2 := by
  cases inquiry with
  | bases symbol =>
      have hlooked (name : String) := baseSymbolsOf_searched hplay hsymbol (h.fair name)
      have hsame : (baseSymbolsOf p symbol s).2.baseMembers = s.baseMembers := (hlooked "").2.1
      refine ⟨fun name => (hlooked name).2.2, fun name a ha members hnoted => ?_⟩
      rw [Inquiry.ask, noted, hsame] at hnoted
      exact (h.more _).settled name a ha members hnoted
  | members symbol name =>
      have hsought := h.sought hplay hsymbol name
      have hfair : (findBaseMembers p symbol name s).2.Fair p play name :=
        hsought.searched.fair (h.fair name)
      -- Of other names nothing is noted.
      have hother (name' : String) (hne : name' ≠ name) (a : SymbolRef) :
          (findBaseMembers p symbol name s).2.noted p name' a = s.noted p name' a :=
        hsought.searched.others (p.key a) name' hne
      constructor
      · intro name'
        refine ⟨hfair.bases, fun a ha members hnoted => ?_⟩
        by_cases hname : name' = name
        · subst hname
          exact hfair.sound a ha members hnoted
        · exact (h.fair name').sound a ha members (hother name' hname a ▸ hnoted)
      · intro name' a ha members hnoted
        by_cases hname : name' = name
        · subst hname
          cases hbefore : s.noted p name' a with
          | none => exact hsought.searched.settled a ha members hbefore hnoted
          | some members' =>
              obtain rfl := hsought.searched.noted_eq hbefore hnoted
              exact (h.more _).settled name' a ha members hbefore
        · exact (h.more _).settled name' a ha members (hother name' hname a ▸ hnoted)

/-! ### Question after question -/

theorem inquired_concat (p : Program) (inquiries : List Inquiry) (inquiry : Inquiry) :
    inquired p (inquiries ++ [inquiry]) = (inquiry.ask p (inquired p inquiries)).2 := by
  simp [inquired]

theorem inquired_reliable (hplay : p.Separates play)
    (hinquiries : ∀ inquiry ∈ inquiries, inquiry.symbol ∈ play) :
    Reliable p play inquiries (inquired p inquiries) := by
  induction inquiries using List.reverseRecOn with
  | nil => exact ⟨fun _ => ⟨nofun, nofun⟩, nofun⟩
  | append_singleton inquiries inquiry ih =>
      rw [inquired_concat]
      exact (ih fun other hother => hinquiries other (List.mem_append_left _ hother)).ask hplay
        (hinquiries inquiry (by simp))

theorem inquired_kept (hplay : p.Separates play)
    (hinquiries : ∀ inquiry ∈ earlier ++ later, inquiry.symbol ∈ play) (entry : SymbolKey × String)
    (members : Option (List SymbolRef))
    (hentry : (inquired p earlier).baseMembers.get? entry = some members) :
    (inquired p (earlier ++ later)).baseMembers.get? entry = some members := by
  induction later using List.reverseRecOn with
  | nil => simpa using hentry
  | append_singleton later inquiry ih =>
      rw [← List.append_assoc] at hinquiries ⊢
      have hbefore (other : Inquiry) (hother : other ∈ earlier ++ later) : other.symbol ∈ play :=
        hinquiries other (List.mem_append_left _ hother)
      rw [inquired_concat]
      exact (inquired_reliable hplay hbefore).kept hplay (hinquiries inquiry (by simp)) entry members
        (ih hbefore)

/-- What is found after questions that were at no circle on the way. -/
theorem mem_findBaseMembers_inquired (hplay : p.Separates play)
    (hinquiries : ∀ inquiry ∈ inquiries, inquiry.symbol ∈ play) (ha : a ∈ play)
    (hapart : ∀ q, .members q name ∈ inquiries → ¬ p.SharesCircle name q a) (member : SymbolRef) :
    member ∈ (findBaseMembers p a name (inquired p inquiries)).1.getD [] ↔ p.Finds name a member := by
  have hreliable := inquired_reliable hplay hinquiries
  refine (hreliable.sought hplay ha name).mem_iff hplay ha (hreliable.fair name)
    fun b hb members hnoted => ?_
  rcases hreliable.settled name b (hplay.sweep_subset ha hb) members hnoted with
    hcomplete | ⟨q, hq, hshares⟩
  · exact hcomplete
  · exact absurd (hshares.below hb) (hapart q hq)

/-- **Earlier questions add nothing to an answer, and they take nothing from it** unless they were at
a circle that it has to go through.  In a program in which symbols have keys of their own, the members
that are found after any questions are among those found with new tables.  They are the same if none
of the questions for members of that name shares a circle with the symbol, or none of those before the
symbol itself was asked for. -/
theorem findBaseMembers_alike (hplay : p.Separates play)
    (hinquiries : ∀ inquiry ∈ earlier ++ later, inquiry.symbol ∈ play) (ha : a ∈ play) :
    (∀ member ∈ (findBaseMembers p a name (inquired p (earlier ++ later))).1.getD [],
      member ∈ (findBaseMembers p a name {}).1.getD []) ∧
    ((∀ q, .members q name ∈ earlier → ¬ p.SharesCircle name q a) →
      (∀ inquiry ∈ later.head?, inquiry = .members a name) →
      ∀ member, member ∈ (findBaseMembers p a name (inquired p (earlier ++ later))).1.getD [] ↔
        member ∈ (findBaseMembers p a name {}).1.getD []) := by
  have hfresh (member : SymbolRef) :
      member ∈ (findBaseMembers p a name {}).1.getD [] ↔ p.Finds name a member := by
    have hnothing : ∀ inquiry ∈ ([] : List Inquiry), inquiry.symbol ∈ play := nofun
    exact mem_findBaseMembers_inquired hplay hnothing ha (by simp) member
  have hreliable := inquired_reliable hplay hinquiries
  have hsought := hreliable.sought hplay ha name
  refine ⟨fun member hmember => (hfresh member).mpr ?_, fun hapart hnext member => ?_⟩
  · exact (hsought.searched.fair (hreliable.fair name)).sound a ha _ hsought.noted member hmember
  · rw [hfresh member]
    have hbefore : ∀ inquiry ∈ earlier, inquiry.symbol ∈ play :=
      fun inquiry hinquiry => hinquiries inquiry (List.mem_append_left _ hinquiry)
    cases later with
    | nil =>
        rw [List.append_nil]
        exact mem_findBaseMembers_inquired hplay hbefore ha hapart member
    | cons inquiry rest =>
        obtain rfl := hnext inquiry rfl
        -- The answer of that time is still noted.
        have hfirst : (inquired p (earlier ++ [.members a name])).noted p name a
            = some (findBaseMembers p a name (inquired p earlier)).1 := by
          rw [inquired_concat]
          exact ((inquired_reliable hplay hbefore).sought hplay ha name).noted
        have hkept := inquired_kept hplay (by simpa using hinquiries) (p.key a, name) _ hfirst
        rw [List.append_assoc, List.singleton_append] at hkept
        rw [hsought.searched.noted_eq hkept hsought.noted]
        exact mem_findBaseMembers_inquired hplay hbefore ha hapart member

/-- The first of the two interfaces that extend each other was asked for before, and the method is
gone from the second one. -/
theorem not_forall_findBaseMembers_alike : ¬ ∀ (p : Program) (play : Set SymbolRef) (name : String)
    (a : SymbolRef) (inquiries : List Inquiry), p.Separates play → a ∈ play →
    (∀ inquiry ∈ inquiries, ∃ q ∈ play, ∃ name', inquiry = .members q name') →
    ∀ member, member ∈ (findBaseMembers p a name (inquired p inquiries)).1.getD [] ↔
      member ∈ (findBaseMembers p a name {}).1.getD [] := by
  intro hall
  have hlost : (findBaseMembers tangled ⟨3⟩ "m" (inquired tangled [.members ⟨2⟩ "m"])).1 = none ∧
      (findBaseMembers tangled ⟨3⟩ "m" {}).1 = some [⟨1⟩] := by
    decide +kernel
  have hsame := hall tangled _ "m" ⟨3⟩ [.members ⟨2⟩ "m"] tangled_separates
    (tangled_mem (by decide)) ?_ ⟨1⟩
  · rw [hlost.1, hlost.2] at hsame
    simp at hsame
  · intro inquiry hinquiry
    exact ⟨⟨2⟩, tangled_mem (by decide), "m", List.mem_singleton.mp hinquiry⟩

/-- The second interface was asked for before the first one, and the one with the method before
both; so its method is still found. -/
theorem findBaseMembers_alike_tangled :
    (findBaseMembers tangled ⟨3⟩ "m" (inquired tangled
      ([.members ⟨0⟩ "m"] ++ [.members ⟨3⟩ "m", .members ⟨2⟩ "m"]))).1 = some [⟨1⟩] ∧
    ∀ member, member ∈ (findBaseMembers tangled ⟨3⟩ "m" (inquired tangled
        ([.members ⟨0⟩ "m"] ++ [.members ⟨3⟩ "m", .members ⟨2⟩ "m"]))).1.getD [] ↔
      member ∈ (findBaseMembers tangled ⟨3⟩ "m" {}).1.getD [] := by
  -- From the interface with the method a search goes nowhere.
  have htop : ¬ tangled.SharesCircle "m" ⟨0⟩ ⟨3⟩ := by
    have hnone : (tangled.directBases ⟨0⟩).getD [] = [] := by decide +kernel
    have hstays (b : SymbolRef) (hb : b ∈ tangled.sweep "m" ⟨0⟩) : b = ⟨0⟩ := by
      rcases hb.cases_head with rfl | ⟨c, hc, -⟩
      · rfl
      · have hbase := hc.1
        rw [Program.HasBase, hnone] at hbase
        cases hbase
    rintro ⟨c, hc, -, d, hne, hd, -⟩
    obtain rfl := hstays c hc
    exact hne (hstays d hd)
  have hasked : ∀ inquiry ∈ [Inquiry.members ⟨0⟩ "m"] ++ [.members ⟨3⟩ "m", .members ⟨2⟩ "m"],
      inquiry.symbol ∈ {a : SymbolRef | a.index < tangled.symbols.size} := by
    simp [Inquiry.symbol, tangled_size]
  refine ⟨by decide +kernel,
    (findBaseMembers_alike tangled_separates hasked (tangled_mem (by decide))).2 ?_ ?_⟩
  · intro q hq
    obtain rfl : q = ⟨0⟩ := by simpa using hq
    exact htop
  · intro inquiry hinquiry
    exact (Option.some.inj hinquiry).symm

end SymbolGraph.Symbols
