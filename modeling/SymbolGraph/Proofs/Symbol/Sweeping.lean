import SymbolGraph.Proofs.Symbol.Inheriting

/-!
# Proofs — Symbol — members of supertypes where heritage runs in circles

Where symbols are above themselves there is no recursion to compare with, and an answer is a set: a
search for the members of a name goes up through bases that have none, and finds the first member of
each base at which it stops.

The search marks the symbol that it is busy with by an empty answer, and reads the mark where it
comes back.  Nothing is lost by that to the symbol that was asked for: whoever was taken up on the way
hands over what was found, and everybody who can be reached is taken up once.  It is the others who
may end up with less than they should have, if the search came back to a symbol below them; and this
happens in circles only.

* `Program.Finds`: the members that are to be found.  `Program.SharesCircle`: two searches come upon
  the same circle.
* `Symbols.Swept`: what a search leaves behind, with what it found.  `Symbols.Swept.complete`: what was
  found is complete, if what was noted before is.
* `Symbols.seekMembers_sought`: one level of the search.
* `Symbols.findBaseMembers_fresh`: from nothing, a search finds exactly the members that are to be
  found.
-/

namespace SymbolGraph

namespace Program

variable {p : Program} {play : Set SymbolRef} {name : String} {a b c q member : SymbolRef}
  {members : Option (List SymbolRef)}

/-- A search goes on from a symbol to a base that has no member of the name. -/
def Climbs (p : Program) (name : String) (a b : SymbolRef) : Prop :=
  p.HasBase a b ∧ p.memberNamed b name = none

/-- The symbols whose bases a search from a symbol goes through. -/
def sweep (p : Program) (name : String) (a : SymbolRef) : Set SymbolRef :=
  {b | Relation.ReflTransGen (p.Climbs name) a b}

/-- The first member of a name in one of the bases of a symbol. -/
def Yields (p : Program) (name : String) (a member : SymbolRef) : Prop :=
  ∃ b, p.HasBase a b ∧ p.memberNamed b name = some member

/-- The members of a name that are to be found from a symbol: those of the bases that can be reached
through bases without one. -/
def Finds (p : Program) (name : String) (a member : SymbolRef) : Prop :=
  ∃ b ∈ p.sweep name a, p.Yields name b member

/-- A search comes back to a symbol by way of another one. -/
def InCircle (p : Program) (name : String) (a : SymbolRef) : Prop :=
  ∃ b ≠ a, b ∈ p.sweep name a ∧ a ∈ p.sweep name b

/-- Searches from two symbols come upon the same circle. -/
def SharesCircle (p : Program) (name : String) (a b : SymbolRef) : Prop :=
  ∃ c, c ∈ p.sweep name a ∧ c ∈ p.sweep name b ∧ p.InCircle name c

/-- An answer has only members that are to be found. -/
def Sound (p : Program) (name : String) (a : SymbolRef) (members : Option (List SymbolRef)) : Prop :=
  ∀ member ∈ members.getD [], p.Finds name a member

/-- An answer has all members that are to be found. -/
def Complete (p : Program) (name : String) (a : SymbolRef) (members : Option (List SymbolRef)) :
    Prop :=
  ∀ member, p.Finds name a member → member ∈ members.getD []

/-- What is swept from below is swept from above. -/
theorem sweep_trans (hab : b ∈ p.sweep name a) (hbc : c ∈ p.sweep name b) : c ∈ p.sweep name a :=
  hab.trans hbc

/-- A single climb is swept. -/
theorem Climbs.mem_sweep (h : p.Climbs name a b) : b ∈ p.sweep name a := .single h

/-- What is found along the way is found from where it began. -/
theorem Finds.below (hab : b ∈ p.sweep name a) (h : p.Finds name b member) :
    p.Finds name a member := by
  obtain ⟨c, hc, hyields⟩ := h
  exact ⟨c, sweep_trans hab hc, hyields⟩

/-- A circle along the way is shared from where the way began. -/
theorem SharesCircle.below (hab : b ∈ p.sweep name a) (h : p.SharesCircle name q b) :
    p.SharesCircle name q a := by
  obtain ⟨c, hq, hb, hcircle⟩ := h
  exact ⟨c, hq, sweep_trans hab hb, hcircle⟩

theorem Finds.exists (h : p.Finds name a member) : ∃ b, p.HasBase a b := by
  obtain ⟨b, hb, c, hc, -⟩ := h
  rcases hb.cases_head with rfl | ⟨d, hd, -⟩
  · exact ⟨c, hc⟩
  · exact ⟨d, hd.1⟩

/-- What is to be found depends on the bases alone. -/
theorem Finds.congr (h : p.Finds name a member) (hbases : p.directBases a = p.directBases b) :
    p.Finds name b member := by
  have hsame (c : SymbolRef) (hc : p.HasBase a c) : p.HasBase b c := by
    rw [HasBase, ← hbases]
    exact hc
  obtain ⟨c, hc, d, hd, hmember⟩ := h
  rcases hc.cases_head with rfl | ⟨e, he, hec⟩
  · exact ⟨b, .refl, d, hsame d hd, hmember⟩
  · exact ⟨c, .head ⟨hsame e he.1, he.2⟩ hec, d, hd, hmember⟩

/-- The play is closed, so nothing is swept out of it. -/
theorem Separates.sweep_subset (hplay : p.Separates play) (ha : a ∈ play) :
    p.sweep name a ⊆ play := by
  intro b hb
  induction hb with
  | refl => exact ha
  | tail _ hclimbs ih => exact hplay.bases _ ih _ hclimbs.1

/-- Another symbol in play with the same key has nothing above it. -/
theorem Separates.complete_of_key (hplay : p.Separates play) (ha : a ∈ play) (hb : b ∈ play)
    (hkey : p.key b = p.key a) (hne : b ≠ a) : p.Complete name b members := by
  intro member hfinds
  obtain ⟨c, hc⟩ := hfinds.exists
  rcases hplay.apart b hb a ha hkey with heq | ⟨hmissing, -⟩
  · exact absurd heq hne
  · exact absurd hc.exists (Nat.not_lt.mpr hmissing)

end Program

namespace Symbols

variable {p : Program} {play asked : Set SymbolRef} {name : String} {a b : SymbolRef}
  {s t u : Symbols} {found found' : List SymbolRef} {members : Option (List SymbolRef)}

/-! ### What a search leaves behind -/

/-- What is noted about the members of a name above a symbol. -/
def noted (p : Program) (name : String) (s : Symbols) (a : SymbolRef) :
    Option (Option (List SymbolRef)) :=
  s.baseMembers.get? (p.key a, name)

/-- What is noted about symbols in play is no more than what is to be found. -/
structure Fair (p : Program) (play : Set SymbolRef) (name : String) (s : Symbols) : Prop where
  bases : ∀ a ∈ play, ∀ bases, s.baseSymbols.get? (p.key a) = some bases → bases = p.directBases a
  sound : ∀ a ∈ play, ∀ members, s.noted p name a = some members → p.Sound name a members

/-- What bases contribute was found: the members of those that have one, and what is noted of those
that have none. -/
structure Covers (p : Program) (name : String) (bases : List SymbolRef) (t : Symbols)
    (found : List SymbolRef) : Prop where
  own   : ∀ b ∈ bases, ∀ member, p.memberNamed b name = some member → member ∈ found
  above : ∀ b ∈ bases, p.memberNamed b name = none →
    ∃ members, t.noted p name b = some members ∧ members.getD [] ⊆ found

/-- What a search leaves behind.  Notes stay as they are, and whatever contributes to a symbol that
was taken up is part of what was found. -/
structure Swept (p : Program) (play : Set SymbolRef) (name : String) (s t : Symbols)
    (found : List SymbolRef) : Prop where
  fair   : s.Fair p play name → t.Fair p play name
  kept   : ∀ entry members, s.baseMembers.get? entry = some members →
    t.baseMembers.get? entry = some members
  others : ∀ key name', name' ≠ name → t.baseMembers.get? (key, name') = s.baseMembers.get? (key, name')
  covers : ∀ a ∈ play, s.noted p name a = none → t.noted p name a ≠ none →
    Covers p name ((p.directBases a).getD []) t found

/-- What is noted anew is complete, unless it is above a circle that a question has come upon. -/
structure Searched (p : Program) (play : Set SymbolRef) (name : String) (asked : Set SymbolRef)
    (s t : Symbols) (found : List SymbolRef) : Prop extends Swept p play name s t found where
  settled : ∀ a ∈ play, ∀ members, s.noted p name a = none → t.noted p name a = some members →
    p.Complete name a members ∨ ∃ q ∈ asked, p.SharesCircle name q a

/-- Before the search from a symbol, what is noted is complete, or above a circle that a question has
come upon, or it is the mark of a symbol that the search came from. -/
structure Prepared (p : Program) (play : Set SymbolRef) (name : String) (asked : Set SymbolRef)
    (s : Symbols) (a : SymbolRef) : Prop where
  fair    : s.Fair p play name
  settled : ∀ b ∈ play, ∀ members, s.noted p name b = some members →
    p.Complete name b members ∨ (∃ q ∈ asked, p.SharesCircle name q b) ∨ a ∈ p.sweep name b

/-- The search from a symbol has an answer, which is noted. -/
structure Sought (p : Program) (play : Set SymbolRef) (name : String) (asked : Set SymbolRef)
    (s : Symbols) (a : SymbolRef) (r : Option (List SymbolRef) × Symbols) : Prop where
  searched : Searched p play name asked s r.2 (r.1.getD [])
  noted    : r.2.noted p name a = some r.1

theorem Covers.mono {bases : List SymbolRef} (h : Covers p name bases t found)
    (hnotes : ∀ b members, t.noted p name b = some members → members.getD [] ⊆ found →
      ∃ members, u.noted p name b = some members ∧ members.getD [] ⊆ found')
    (hfound : found ⊆ found') : Covers p name bases u found' where
  own b hb member hmember := hfound (h.own b hb member hmember)
  above b hb hnone := by
    obtain ⟨members, hmembers, hsub⟩ := h.above b hb hnone
    exact hnotes b members hmembers hsub

theorem Covers.kept {bases : List SymbolRef} (h : Covers p name bases t found)
    (hkept : ∀ entry members, t.baseMembers.get? entry = some members →
      u.baseMembers.get? entry = some members) (hfound : found ⊆ found') :
    Covers p name bases u found' :=
  h.mono (fun _ members hmembers hsub =>
    ⟨members, hkept _ _ hmembers, List.Subset.trans hsub hfound⟩) hfound

/-- A base with a member of its own is covered by that member. -/
theorem Covers.cons_own {bases : List SymbolRef} {member : SymbolRef}
    (h : Covers p name bases t found) (hmember : p.memberNamed b name = some member) :
    Covers p name (b :: bases) t (member :: found) where
  own c hc other hother := by
    rcases List.mem_cons.mp hc with rfl | hc
    · rw [Option.some.inj (hother.symm.trans hmember)]
      exact List.mem_cons_self
    · exact List.mem_cons_of_mem _ (h.own c hc other hother)
  above c hc hnone := by
    rcases List.mem_cons.mp hc with rfl | hc
    · cases hmember.symm.trans hnone
    · obtain ⟨members, hmembers, hsub⟩ := h.above c hc hnone
      exact ⟨members, hmembers, List.Subset.trans hsub (List.subset_cons_self _ _)⟩

/-- A base without one is covered by what was noted for it. -/
theorem Covers.cons_above {bases : List SymbolRef} (h : Covers p name bases t found)
    (hmember : p.memberNamed b name = none) (hnoted : t.noted p name b = some members) :
    Covers p name (b :: bases) t (members.getD [] ++ found) where
  own c hc other hother := by
    rcases List.mem_cons.mp hc with rfl | hc
    · cases hmember.symm.trans hother
    · exact List.mem_append_right _ (h.own c hc other hother)
  above c hc hnone := by
    rcases List.mem_cons.mp hc with rfl | hc
    · exact ⟨members, hnoted, List.subset_append_left _ _⟩
    · obtain ⟨members', hmembers', hsub⟩ := h.above c hc hnone
      exact ⟨members', hmembers', List.Subset.trans hsub (List.subset_append_right _ _)⟩

/-- What was noted is still noted. -/
theorem Swept.noted_eq {members' : Option (List SymbolRef)} (h : Swept p play name s t found)
    (hbefore : s.noted p name a = some members) (hafter : t.noted p name a = some members') :
    members' = members :=
  Option.some.inj (hafter.symm.trans (h.kept _ members hbefore))

theorem Searched.refl (s : Symbols) (found : List SymbolRef) :
    Searched p play name asked s s found where
  fair h := h
  kept _ _ h := h
  others _ _ _ := rfl
  covers _ _ hnone hsome := absurd hnone hsome
  settled a _ members hnone hsome := by rw [hnone] at hsome; cases hsome

/-- What two searches have noted and found they have together. -/
theorem Searched.trans (h : Searched p play name asked s t found)
    (h' : Searched p play name asked t u found') :
    Searched p play name asked s u (found ++ found') where
  fair hs := h'.fair (h.fair hs)
  kept entry members hentry := h'.kept entry members (h.kept entry members hentry)
  others key name' hne := (h'.others key name' hne).trans (h.others key name' hne)
  covers a ha hnone hsome := by
    by_cases hbetween : t.noted p name a = none
    · exact (h'.covers a ha hbetween hsome).kept (fun _ _ hentry => hentry)
        (List.subset_append_right _ _)
    · exact (h.covers a ha hnone hbetween).kept h'.kept (List.subset_append_left _ _)
  settled a ha members hnone hsome := by
    cases hbetween : t.noted p name a with
    | none => exact h'.settled a ha members hbetween hsome
    | some members' =>
        obtain rfl := h'.noted_eq hbetween hsome
        exact h.settled a ha members hnone hbetween

theorem Swept.takes (h : Swept p play name s t found) : Takes name s t := by
  intro key htaken
  obtain ⟨members, hmembers⟩ := Option.ne_none_iff_exists'.mp htaken
  rw [h.kept _ members hmembers]
  exact Option.some_ne_none members

/-- **What was found is complete**, if what was noted before of the symbols that can be reached
is.  Whoever can be reached was taken up, or is above a symbol whose note was complete. -/
theorem Swept.complete (h : Swept p play name s t found) (hplay : p.Separates play) (ha : a ∈ play)
    (hnone : s.noted p name a = none) (hsome : t.noted p name a ≠ none)
    (hold : ∀ b ∈ p.sweep name a, ∀ members, s.noted p name b = some members →
      p.Complete name b members) (member : SymbolRef) (hfinds : p.Finds name a member) :
    member ∈ found := by
  have hreached (b : SymbolRef) (hb : b ∈ p.sweep name a) :
      (s.noted p name b = none ∧ t.noted p name b ≠ none) ∨
        ∀ member, p.Finds name b member → member ∈ found := by
    induction hb with
    | refl => exact .inl ⟨hnone, hsome⟩
    | @tail b c hab hbc ih =>
        rcases ih with ⟨hfree, htaken⟩ | hall
        · have hcovers := h.covers b (hplay.sweep_subset ha hab) hfree htaken
          obtain ⟨members, hmembers, hsub⟩ := hcovers.above c hbc.1 hbc.2
          cases hbefore : s.noted p name c with
          | none => exact .inl ⟨rfl, by rw [hmembers]; exact Option.some_ne_none members⟩
          | some members' =>
              obtain rfl := h.noted_eq hbefore hmembers
              exact .inr fun member hfinds =>
                hsub (hold c (hab.tail hbc) members hbefore member hfinds)
        · exact .inr fun member hfinds => hall member (hfinds.below hbc.mem_sweep)
  obtain ⟨b, hb, c, hc, hmember⟩ := hfinds
  rcases hreached b hb with ⟨hfree, htaken⟩ | hall
  · exact (h.covers b (hplay.sweep_subset ha hb) hfree htaken).own c hc member hmember
  · exact hall member ⟨b, .refl, c, hc, hmember⟩

/-! ### What a search may count on -/

/-- Who was prepared before a search is prepared after it. -/
theorem Prepared.after (h : Prepared p play name asked s a)
    (hsearched : Searched p play name asked s t found) : Prepared p play name asked t a where
  fair := hsearched.fair h.fair
  settled b hb members hmembers := by
    cases hbefore : s.noted p name b with
    | none => exact (hsearched.settled b hb members hbefore hmembers).imp_right .inl
    | some members' =>
        obtain rfl := hsearched.noted_eq hbefore hmembers
        exact h.settled b hb members hbefore

/-- Who climbs from a prepared symbol is prepared. -/
theorem Prepared.climb (h : Prepared p play name asked s a) (hclimbs : p.Climbs name a b) :
    Prepared p play name asked s b where
  fair := h.fair
  settled c hc members hmembers :=
    (h.settled c hc members hmembers).imp_right fun hrest =>
      hrest.imp_right fun hsweep => Program.sweep_trans hsweep hclimbs.mem_sweep

/-- Members that are kept count for all symbols with the key. -/
theorem noted_keeping (s : Symbols) (a b : SymbolRef) (members : Option (List SymbolRef)) :
    (s.keeping (p.key a) name members).noted p name b
      = if p.key b = p.key a then some members else s.noted p name b := by
  simp [noted, get?_keeping]

/-- What is kept is fair, if the members that are kept are sound. -/
theorem Fair.keeping (h : s.Fair p play name) (hplay : p.Separates play) (ha : a ∈ play)
    (hsound : p.Sound name a members) : (s.keeping (p.key a) name members).Fair p play name := by
  refine ⟨h.bases, fun b hb members' hmembers => ?_⟩
  rw [noted_keeping] at hmembers
  split at hmembers
  · rename_i hkey
    cases hmembers
    exact fun member hmember => (hsound member hmember).congr (hplay.directBases ha hb hkey.symm)
  · exact h.sound b hb members' hmembers

/-- The mark of a symbol has nothing in it, and the search comes from there. -/
theorem Prepared.mark (h : Prepared p play name asked s a) (hplay : p.Separates play)
    (ha : a ∈ play) : Prepared p play name asked (s.keeping (p.key a) name none) a where
  fair := h.fair.keeping hplay ha nofun
  settled b hb members hmembers := by
    rw [noted_keeping] at hmembers
    split at hmembers
    · rename_i hkey
      by_cases heq : b = a
      · rw [heq]
        exact .inr (.inr .refl)
      · exact .inl (hplay.complete_of_key ha hb hkey heq)
    · exact h.settled b hb members hmembers

/-- The answer takes the place of the mark. -/
theorem Searched.answer
    (h : Searched p play name asked (s.keeping (p.key a) name none) u found)
    (hplay : p.Separates play) (ha : a ∈ play) (hnone : s.noted p name a = none)
    (hcovers : Covers p name ((p.directBases a).getD []) u found)
    (hsound : p.Sound name a (some found)) (hmembers : members.getD [] = found) :
    Swept p play name s (u.keeping (p.key a) name members) found := by
  -- The entry of `a` is no longer the mark but its answer; the entries of all others are those of
  -- `u`.
  have hkept (b : SymbolRef) (members' : Option (List SymbolRef))
      (hnoted : u.noted p name b = some members') (hsub : members'.getD [] ⊆ found) :
      ∃ members', (u.keeping (p.key a) name members).noted p name b = some members' ∧
        members'.getD [] ⊆ found := by
    rw [noted_keeping]
    split
    · exact ⟨members, rfl, by rw [hmembers]; exact List.Subset.refl _⟩
    · exact ⟨members', hnoted, hsub⟩
  refine { fair := ?fair, kept := ?kept, others := ?others, covers := ?covers }
  case fair =>
    intro hs
    refine (h.fair (hs.keeping hplay ha nofun)).keeping hplay ha ?_
    rw [Program.Sound, hmembers]
    exact hsound
  case kept =>
    rintro ⟨key, name'⟩ members' hentry
    have hne : ¬ (key = p.key a ∧ name' = name) := by
      rintro ⟨rfl, rfl⟩
      cases hnone.symm.trans hentry
    rw [get?_keeping, if_neg hne]
    refine h.kept _ _ ?_
    rw [get?_keeping, if_neg hne]
    exact hentry
  case others =>
    intro key name' hne
    rw [get?_keeping, if_neg fun hsame => hne hsame.2, h.others key name' hne, get?_keeping,
      if_neg fun hsame => hne hsame.2]
  case covers =>
    -- A symbol that shares the key of `a` has its bases as well, so `a`'s answer covers it.
    intro b hb hfree htaken
    by_cases hkey : p.key b = p.key a
    · rw [hplay.directBases hb ha hkey]
      exact hcovers.mono hkept (List.Subset.refl _)
    · rw [noted_keeping, if_neg hkey] at htaken
      refine (h.covers b hb ?_ htaken).mono hkept (List.Subset.refl _)
      rw [noted_keeping, if_neg hkey]
      exact hfree

/-- The answer is complete, unless the search came back to a symbol that it came from: then both are
in a circle. -/
theorem Prepared.settles (h : Prepared p play name asked s a) (hplay : p.Separates play)
    (ha : a ∈ play) (hasked : ∃ q ∈ asked, a ∈ p.sweep name q) (hnone : s.noted p name a = none)
    (hswept : Swept p play name s t found) (hnoted : t.noted p name a = some members)
    (hmembers : members.getD [] = found) :
    p.Complete name a members ∨ ∃ q ∈ asked, p.SharesCircle name q a := by
  by_cases hshares : ∃ q ∈ asked, p.SharesCircle name q a
  · exact .inr hshares
  · refine .inl fun member hfinds => ?_
    rw [hmembers]
    refine hswept.complete hplay ha hnone (by rw [hnoted]; exact Option.some_ne_none members)
      (fun b hb members' hbefore => ?_) member hfinds
    rcases h.settled b (hplay.sweep_subset ha hb) members' hbefore with
      hcomplete | ⟨q, hq, hcircle⟩ | hback
    · exact hcomplete
    · exact absurd ⟨q, hq, hcircle.below hb⟩ hshares
    · have hne : b ≠ a := by
        rintro rfl
        cases hnone.symm.trans hbefore
      obtain ⟨q, hq, hsweep⟩ := hasked
      exact absurd ⟨q, hq, a, hsweep, .refl, b, hne, hb, hback⟩ hshares

/-! ### One level of the search -/

theorem baseSymbolsOf_searched (hplay : p.Separates play) (ha : a ∈ play)
    (hs : s.Fair p play name) : (baseSymbolsOf p a s).1 = p.directBases a ∧
      (baseSymbolsOf p a s).2.baseMembers = s.baseMembers ∧
      (baseSymbolsOf p a s).2.Fair p play name := by
  obtain ⟨himproves, hanswer⟩ := baseSymbolsOf_consults hplay ha (hs.bases a ha)
  have hmembers : (baseSymbolsOf p a s).2.baseMembers = s.baseMembers := by
    simp only [baseSymbolsOf, run_look]
    cases s.baseSymbols.get? (p.key a) <;> rfl
  refine ⟨hanswer, hmembers, fun b hb bases hbases => ?_, ?_⟩
  · rcases himproves.bases b hb with hsame | hright
    · exact hs.bases b hb bases (hsame ▸ hbases)
    · exact Option.some.inj (hbases.symm.trans hright)
  · intro b hb members hnoted
    rw [noted, hmembers] at hnoted
    exact hs.sound b hb members hnoted

section Search

variable {ask : SymbolRef → StateM Symbols (Option (List SymbolRef))} {depth : Nat}

theorem searchBases_of_none (h : (baseSymbolsOf p a s).1 = none) :
    searchBases p name ask a s = ([], (baseSymbolsOf p a s).2) := by
  rcases hlook : baseSymbolsOf p a s with ⟨bases, t⟩
  rw [hlook] at h
  dsimp only at h
  subst h
  simp only [searchBases, bind, StateT.bind, hlook]
  rfl

theorem searchBases_of_some {bases : List SymbolRef} (h : (baseSymbolsOf p a s).1 = some bases) :
    searchBases p name ask a s = membersAlong p name ask bases (baseSymbolsOf p a s).2 := by
  rcases hlook : baseSymbolsOf p a s with ⟨bases', t⟩
  rw [hlook] at h
  dsimp only at h
  subst h
  simp only [searchBases, bind, StateT.bind, hlook]

variable (hask : ∀ b ∈ play, ∀ s : Symbols, s.untaken p name < depth →
  (∃ q ∈ asked, b ∈ p.sweep name q) → Prepared p play name asked s b →
    Sought p play name asked s b (ask b s))

include hask

/-- Along the bases of a symbol, what they contribute is found and nothing else. -/
theorem membersAlong_searched (hplay : p.Separates play) (ha : a ∈ play)
    (hasked : ∃ q ∈ asked, a ∈ p.sweep name q) :
    ∀ (bases : List SymbolRef) (s : Symbols), (∀ b ∈ bases, p.HasBase a b) →
      s.untaken p name < depth → Prepared p play name asked s a →
      Searched p play name asked s (membersAlong p name ask bases s).2
          (membersAlong p name ask bases s).1 ∧
        Covers p name bases (membersAlong p name ask bases s).2 (membersAlong p name ask bases s).1 ∧
        p.Sound name a (some (membersAlong p name ask bases s).1)
  | [], s, _, _, _ => ⟨.refl s [], ⟨nofun, nofun⟩, nofun⟩
  | base :: bases, s, hbases, hs, hprepared => by
      have hbase : p.HasBase a base := hbases base List.mem_cons_self
      have hbases' (b : SymbolRef) (hb : b ∈ bases) : p.HasBase a b :=
        hbases b (List.mem_cons_of_mem _ hb)
      -- A base with a member of that name answers for itself; any other is asked, and what it has
      -- taken counts for the rest of the bases.
      cases hmember : p.memberNamed base name with
      | some member =>
          have hrun : membersAlong p name ask (base :: bases) s
              = (member :: (membersAlong p name ask bases s).1,
                  (membersAlong p name ask bases s).2) := by
            rw [membersAlong, hmember]
            rfl
          obtain ⟨hsearched, hcovers, hsound⟩ :=
            membersAlong_searched hplay ha hasked bases s hbases' hs hprepared
          rw [hrun]
          refine ⟨by simpa using (Searched.refl s [member]).trans hsearched,
            hcovers.cons_own hmember, ?_⟩
          intro other hother
          rcases List.mem_cons.mp hother with rfl | hother
          · exact ⟨a, .refl, base, hbase, hmember⟩
          · exact hsound other hother
      | none =>
          have hclimbs : p.Climbs name a base := ⟨hbase, hmember⟩
          have hrun : membersAlong p name ask (base :: bases) s
              = ((ask base s).1.getD [] ++ (membersAlong p name ask bases (ask base s).2).1,
                  (membersAlong p name ask bases (ask base s).2).2) := by
            rw [membersAlong, hmember]
            rfl
          have hreached : ∃ q ∈ asked, base ∈ p.sweep name q := by
            obtain ⟨q, hq, hsweep⟩ := hasked
            exact ⟨q, hq, Program.sweep_trans hsweep hclimbs.mem_sweep⟩
          have hfirst := hask base (hplay.bases a ha base hbase) s hs hreached
            (hprepared.climb hclimbs)
          have hafter := hprepared.after hfirst.searched
          obtain ⟨hsearched, hcovers, hsound⟩ :=
            membersAlong_searched hplay ha hasked bases (ask base s).2 hbases'
              (Nat.lt_of_le_of_lt hfirst.searched.takes.untaken_le hs) hafter
          rw [hrun]
          refine ⟨hfirst.searched.trans hsearched,
            hcovers.cons_above hmember (hsearched.kept _ _ hfirst.noted), ?_⟩
          intro other hother
          rcases List.mem_append.mp hother with hother | hother
          · exact Program.Finds.below hclimbs.mem_sweep
              (hafter.fair.sound base (hplay.bases a ha base hbase) _ hfirst.noted other hother)
          · exact hsound other hother

/-- What a level finds between the mark and the answer. -/
theorem searchBases_searched (hplay : p.Separates play) (ha : a ∈ play)
    (hasked : ∃ q ∈ asked, a ∈ p.sweep name q) (hs : s.untaken p name < depth)
    (hprepared : Prepared p play name asked s a) :
    Searched p play name asked s (searchBases p name ask a s).2 (searchBases p name ask a s).1 ∧
      Covers p name ((p.directBases a).getD []) (searchBases p name ask a s).2
        (searchBases p name ask a s).1 ∧
      p.Sound name a (some (searchBases p name ask a s).1) := by
  obtain ⟨hanswer, hmembers, hfair⟩ := baseSymbolsOf_searched hplay ha hprepared.fair
  -- Asking for the bases leaves the notes about members alone.
  have hlooked : Searched p play name asked s (baseSymbolsOf p a s).2 [] := by
    refine { fair := fun _ => hfair, kept := ?kept, others := ?others, covers := ?covers,
             settled := ?settled }
    case kept => exact fun entry members hentry => by rw [hmembers]; exact hentry
    case others => exact fun key name' _ => by rw [hmembers]
    case covers =>
      intro b _ hnone hsome
      rw [noted, hmembers] at hsome
      exact absurd hnone hsome
    case settled =>
      intro b _ members hnone hsome
      rw [noted, hmembers] at hsome
      cases hnone.symm.trans hsome
  cases hbases : p.directBases a with
  | none =>
      rw [searchBases_of_none (hanswer.trans hbases)]
      exact ⟨hlooked, ⟨nofun, nofun⟩, nofun⟩
  | some bases =>
      have hbase (b : SymbolRef) (hb : b ∈ bases) : p.HasBase a b := by
        simpa [Program.HasBase, hbases] using hb
      obtain ⟨hsearched, hcovers, hsound⟩ := membersAlong_searched hask hplay ha hasked bases
        (baseSymbolsOf p a s).2 hbase (Nat.lt_of_le_of_lt hlooked.takes.untaken_le hs)
        (hprepared.after hlooked)
      rw [searchBases_of_some (hanswer.trans hbases)]
      exact ⟨by simpa using hlooked.trans hsearched, hcovers, hsound⟩

/-- **One level of the search**: the mark of a symbol gives way to what was found from it, which is
complete, unless the symbol is in a circle. -/
theorem seekMembers_sought (hplay : p.Separates play) (ha : a ∈ play)
    (hasked : ∃ q ∈ asked, a ∈ p.sweep name q) (hs : s.untaken p name < depth + 1)
    (hprepared : Prepared p play name asked s a) :
    Sought p play name asked s a (seekMembers p name ask a s) := by
  cases hbefore : s.noted p name a with
  | some members =>
      rw [seekMembers_of_kept hbefore]
      exact ⟨.refl s _, hbefore⟩
  | none =>
      -- Marking `a` takes one of the keys that are left, so the depth suffices for its bases.
      have hmarked : (s.keeping (p.key a) name none).untaken p name < depth := by
        have htaken : Takes name s (s.keeping (p.key a) name none) := by
          intro key hkey
          rw [get?_keeping]
          split
          · exact Option.some_ne_none _
          · exact hkey
        have hlt := htaken.untaken_lt hbefore (by rw [get?_keeping]; simp)
        omega
      obtain ⟨hsearched, hcovers, hsound⟩ := searchBases_searched hask hplay ha hasked hmarked
        (hprepared.mark hplay ha)
      rw [seekMembers_of_not_kept hbefore]
      dsimp only
      generalize searchBases p name ask a (s.keeping (p.key a) name none) = r at *
      obtain ⟨found, u⟩ := r
      have hfound : (if found.isEmpty then none else some found).getD [] = found := by
        cases found <;> rfl
      have hswept := hsearched.answer hplay ha hbefore hcovers hsound hfound
      refine ⟨⟨by rwa [hfound], fun b hb members hnone hsome => ?_⟩, by rw [noted_keeping, if_pos rfl]⟩
      rw [noted_keeping] at hsome
      -- Of the answers that are new, one belongs to `a` or to a symbol with its key, any other to
      -- the search below.
      by_cases hkey : p.key b = p.key a
      · rw [if_pos hkey] at hsome
        cases hsome
        by_cases heq : b = a
        · rw [heq]
          exact hprepared.settles hplay ha hasked hbefore hswept
            (by rw [noted_keeping, if_pos rfl]) hfound
        · exact .inl (hplay.complete_of_key ha hb hkey heq)
      · rw [if_neg hkey] at hsome
        refine hsearched.settled b hb members ?_ hsome
        rw [noted_keeping, if_neg hkey]
        exact hnone

end Search

/-! ### The whole search -/

/-- **Looking for members**, however the heritage runs: each level takes up another key. -/
theorem findBaseMembers_sought (hplay : p.Separates play) (ha : a ∈ play) (hasked : a ∈ asked)
    (hs : Prepared p play name asked s a) :
    Sought p play name asked s a (findBaseMembers p a name s) := by
  have hlevels (depth : Nat) : ∀ b ∈ play, ∀ t : Symbols, t.untaken p name < depth →
      (∃ q ∈ asked, b ∈ p.sweep name q) → Prepared p play name asked t b →
      Sought p play name asked t b ((seekMembers p name)^[depth] (fun _ => pure none) b t) := by
    induction depth with
    | zero => exact fun _ _ _ ht => absurd ht (Nat.not_lt_zero _)
    | succ depth ih =>
        intro b hb t ht hreached hprepared
        rw [Function.iterate_succ_apply']
        exact seekMembers_sought ih hplay hb hreached ht hprepared
  have hfree : s.untaken p name < p.symbols.size + 2 :=
    Nat.lt_succ_of_le ((Finset.card_filter_le _ _).trans p.card_keys_le)
  rw [findBaseMembers, findBaseMembersWithin_eq_iterate]
  exact hlevels _ a ha s hfree ⟨a, hasked, .refl⟩ hs

/-- **An answer is exact**, if what was noted of the symbols that can be reached is complete. -/
theorem Sought.mem_iff {r : Option (List SymbolRef) × Symbols} {member : SymbolRef}
    (h : Sought p play name asked s a r) (hplay : p.Separates play) (ha : a ∈ play)
    (hs : s.Fair p play name)
    (hold : ∀ b ∈ p.sweep name a, ∀ members, s.noted p name b = some members →
      p.Complete name b members) :
    member ∈ r.1.getD [] ↔ p.Finds name a member := by
  constructor
  · exact (h.searched.fair hs).sound a ha r.1 h.noted member
  · intro hfinds
    cases hbefore : s.noted p name a with
    | some members =>
        rw [h.searched.noted_eq hbefore h.noted]
        exact hold a .refl members hbefore member hfinds
    | none =>
        refine h.searched.complete hplay ha hbefore ?_ hold member hfinds
        rw [h.noted]
        exact Option.some_ne_none r.1

theorem prepared_empty (p : Program) (play asked : Set SymbolRef) (name : String) (a : SymbolRef) :
    Prepared p play name asked {} a :=
  ⟨⟨nofun, nofun⟩, nofun⟩

/-- **Heritage is searched completely**, also in circles.  In a program in which symbols have keys of
their own, the search for members from new tables ends, whatever it would be answered further down
than it goes, and finds the first members of the bases that can be reached through bases without such
a member, and nothing else. -/
theorem findBaseMembers_fresh (hplay : p.Separates play) (ha : a ∈ play) :
    (∀ deeper, (seekMembers p name)^[p.symbols.size + 2] deeper a {} = findBaseMembers p a name {}) ∧
      ∀ member, member ∈ (findBaseMembers p a name {}).1.getD [] ↔ p.Finds name a member := by
  have hsought : Sought p play name {a} {} a (findBaseMembers p a name {}) :=
    findBaseMembers_sought hplay ha rfl (prepared_empty p play {a} name a)
  refine ⟨fun deeper => ?_, fun member => hsought.mem_iff hplay ha ⟨nofun, nofun⟩ nofun⟩
  rw [findBaseMembers, findBaseMembersWithin_eq_iterate]
  exact findBaseMembers_ends deeper _

/-- Two interfaces extend each other, and the first of them also extends the one that has the
method. -/
def tangled : Program :=
  match Program.ofSteps
      [.file ⟨"/p/a.ts"⟩ "C{m}A:B,C{}B:A{}",
       .node ⟨0⟩ .interfaceDeclaration 0 4, .node ⟨1⟩ .methodSignature 2 3,
       .node ⟨0⟩ .interfaceDeclaration 4 11, .node ⟨0⟩ .interfaceDeclaration 11 16,
       .symbol "C" .ofInterface, .symbol "m" .method,
       .declare ⟨0⟩ ⟨1⟩, .declare ⟨1⟩ ⟨2⟩, .member ⟨0⟩ ⟨1⟩,
       .symbol "A" .ofInterface, .declare ⟨2⟩ ⟨3⟩,
       .symbol "B" .ofInterface, .declare ⟨3⟩ ⟨4⟩,
       .objectType (some ⟨0⟩), .objectType (some ⟨2⟩), .objectType (some ⟨3⟩),
       .declaredType ⟨2⟩ ⟨1⟩, .baseType ⟨1⟩ ⟨2⟩, .baseType ⟨1⟩ ⟨0⟩,
       .declaredType ⟨3⟩ ⟨2⟩, .baseType ⟨2⟩ ⟨1⟩] with
    | .ok p    => p
    | .error _ => .empty

theorem tangled_size : tangled.symbols.size = 4 := by decide +kernel

theorem tangled_mem {i : Nat} (hi : i < 4) :
    (⟨i⟩ : SymbolRef) ∈ {a : SymbolRef | a.index < tangled.symbols.size} := by
  show i < tangled.symbols.size
  rw [tangled_size]
  exact hi

theorem tangled_separates : tangled.Separates {a | a.index < tangled.symbols.size} := by
  have hkeys : ∀ i < 4, ∀ j < 4, tangled.key ⟨i⟩ = tangled.key ⟨j⟩ → i = j := by decide +kernel
  have hbases : ∀ i < 4, ∀ b ∈ (tangled.directBases ⟨i⟩).getD [], b.index < 4 := by decide +kernel
  refine Program.separates_of_distinct (fun a b ha hb hkey => ?_) fun a b h => ?_
  · rw [tangled_size] at ha hb
    exact congrArg SymbolRef.mk (hkeys a.index ha b.index hb hkey)
  · rw [tangled_size]
    exact hbases a.index (tangled_size ▸ h.exists) b h

/-- The method comes to the second interface through the first one, from which the search also comes
back. -/
theorem findBaseMembers_fresh_tangled :
    (findBaseMembers tangled ⟨3⟩ "m" {}).1 = some [⟨1⟩] ∧ tangled.InCircle "m" ⟨3⟩ ∧
      tangled.Finds "m" ⟨3⟩ ⟨1⟩ := by
  have hanswer : (findBaseMembers tangled ⟨3⟩ "m" {}).1 = some [⟨1⟩] := by decide +kernel
  have hbases : (⟨2⟩ ∈ (tangled.directBases ⟨3⟩).getD [] ∧ tangled.memberNamed ⟨2⟩ "m" = none) ∧
      (⟨3⟩ ∈ (tangled.directBases ⟨2⟩).getD [] ∧ tangled.memberNamed ⟨3⟩ "m" = none) := by
    decide +kernel
  obtain ⟨hup, hback⟩ := hbases
  refine ⟨hanswer, ⟨⟨2⟩, by decide, .single hup, .single hback⟩, ?_⟩
  refine ((findBaseMembers_fresh tangled_separates (tangled_mem (by decide))).2 ⟨1⟩).mp ?_
  rw [hanswer]
  exact List.mem_singleton_self _

end Symbols

end SymbolGraph
