import Mathlib.Order.WellFoundedSet
import SymbolGraph.Program.Build
import SymbolGraph.Proofs.Symbol.Terminating

/-!
# Proofs — Symbol — members of supertypes from nothing

The members of a name along the supertypes of a symbol as the program defines them, with nothing
remembered from earlier questions: bases are gone through in order, a base that has the member
contributes it, and one that has not contributes what is along its own bases.  Nobody is left out for
having been met before, so a shared ancestor counts once for each path to it.

The search keeps every answer by key, and marks the symbol whose members it is looking for with an
empty one.  Where no symbol is above itself that mark is never read: whatever is asked while it
stands is above the symbol that bears it.

* `Program.Along`, `Program.Inherits`: the recursion.  `Program.Along.unique`: it has at most one
  answer.  `Program.exists_inherits`: where heritage has no circle it has one.
* `Symbols.Right`: what is kept about some symbols is right.  `Symbols.Improves`: an entry is as before
  or right.
* `Symbols.seekMembers_consults`: one level of the search.
* `Symbols.findBaseMembers_after`: after any questions, an answer is that of the recursion.
-/

namespace SymbolGraph

namespace Program

variable {p : Program} {play : Set SymbolRef} {name : String} {a b c : SymbolRef}

/-- One symbol is a direct supertype of another. -/
def HasBase (p : Program) (a b : SymbolRef) : Prop := b ∈ (p.directBases a).getD []

/-- The symbols at or above a symbol. -/
def above (p : Program) (a : SymbolRef) : Set SymbolRef := {b | Relation.ReflTransGen p.HasBase a b}

/-- The members of a name along bases, in order and once for each path. -/
inductive Along (p : Program) (name : String) : List SymbolRef → List SymbolRef → Prop
  | nil : Along p name [] []
  /-- A base that has the member ends the search along its path. -/
  | own {base member : SymbolRef} {bases found : List SymbolRef} :
      p.memberNamed base name = some member → Along p name bases found →
      Along p name (base :: bases) (member :: found)
  /-- A base that has not is searched in turn. -/
  | above {base : SymbolRef} {bases inherited found : List SymbolRef} :
      p.memberNamed base name = none → Along p name ((p.directBases base).getD []) inherited →
      Along p name bases found → Along p name (base :: bases) (inherited ++ found)

/-- The members of a name along the supertypes of a symbol; there is no answer for a symbol without
supertypes, nor where nothing is found. -/
def Inherits (p : Program) (name : String) (a : SymbolRef) (members : Option (List SymbolRef)) :
    Prop :=
  ∃ found, p.Along name ((p.directBases a).getD []) found ∧
    members = if found.isEmpty then none else some found

/-- The symbols that are in play: the supertypes of such symbols are, and two that have the same key
are one, or neither of them exists. -/
structure Separates (p : Program) (play : Set SymbolRef) : Prop where
  bases : ∀ a ∈ play, ∀ b, p.HasBase a b → b ∈ play
  apart : ∀ a ∈ play, ∀ b ∈ play, p.key a = p.key b →
    a = b ∨ p.symbols.size ≤ a.index ∧ p.symbols.size ≤ b.index

/-! ### The recursion -/

theorem Along.unique {bases found found' : List SymbolRef} (h : p.Along name bases found)
    (h' : p.Along name bases found') : found = found' := by
  induction h generalizing found' with
  | nil => cases h'; rfl
  | own hmember _ ih =>
      cases h' with
      | own hmember' hrest => simp [ih hrest, Option.some.inj (hmember.symm.trans hmember')]
      | above hnone => simp [hmember] at hnone
  | above hnone _ _ ihabove ih =>
      cases h' with
      | own hmember => simp [hnone] at hmember
      | above _ habove hrest => rw [ihabove habove, ih hrest]

theorem Inherits.unique {members members' : Option (List SymbolRef)}
    (h : p.Inherits name a members) (h' : p.Inherits name a members') : members = members' := by
  obtain ⟨found, hfound, rfl⟩ := h
  obtain ⟨found', hfound', rfl⟩ := h'
  rw [hfound.unique hfound']

/-- The answer of a base is what is along its own bases, or nothing. -/
theorem Inherits.along {members : Option (List SymbolRef)} (h : p.Inherits name a members) :
    p.Along name ((p.directBases a).getD []) (members.getD []) := by
  obtain ⟨found, hfound, rfl⟩ := h
  cases found <;> exact hfound

theorem directBases_of_missing (h : p.symbols.size ≤ a.index) : p.directBases a = none := by
  have hnone : p.symbol? a = none := by simp [symbol?, h]
  simp only [directBases, symbolFlags, hnone]
  rfl

theorem HasBase.exists (h : p.HasBase a b) : a.index < p.symbols.size := by
  by_contra hge
  simp [HasBase, directBases_of_missing (Nat.le_of_not_lt hge)] at h

/-- Where no symbol is above itself, going up comes to an end. -/
theorem wellFounded_hasBase (hacyclic : ∀ a, ¬ Relation.TransGen p.HasBase a a) :
    WellFounded fun b a => p.HasBase a b := by
  have hmissing (a : SymbolRef) (ha : ¬ a.index < p.symbols.size) :
      Acc (fun b a => p.HasBase a b) a :=
    ⟨a, fun b hb => absurd hb.exists ha⟩
  have hfinite : {a : SymbolRef | a.index < p.symbols.size}.Finite := by
    refine ((Set.finite_lt_nat p.symbols.size).image SymbolRef.mk).subset fun a ha => ?_
    exact ⟨a.index, ha, rfl⟩
  have : IsStrictOrder SymbolRef fun b a => Relation.TransGen p.HasBase a b :=
    { irrefl := hacyclic, trans := fun _ _ _ hab hbc => hbc.trans hab }
  refine ⟨fun a => ?_⟩
  by_cases ha : a.index < p.symbols.size
  · refine (hfinite.wellFoundedOn (r := fun b a => Relation.TransGen p.HasBase a b)).induction ha ?_
    intro a _ ih
    refine ⟨a, fun b hb => ?_⟩
    by_cases hexists : b.index < p.symbols.size
    · exact ih b hexists (.single hb)
    · exact hmissing b hexists
  · exact hmissing a ha

theorem exists_along {bases : List SymbolRef}
    (h : ∀ base ∈ bases, ∃ found, p.Along name ((p.directBases base).getD []) found) :
    ∃ found, p.Along name bases found := by
  induction bases with
  | nil => exact ⟨[], .nil⟩
  | cons base bases ih =>
      obtain ⟨inherited, hinherited⟩ := h base List.mem_cons_self
      obtain ⟨found, hfound⟩ := ih fun other hother => h other (List.mem_cons_of_mem _ hother)
      cases hmember : p.memberNamed base name with
      | some member => exact ⟨member :: found, .own hmember hfound⟩
      | none => exact ⟨inherited ++ found, .above hmember hinherited hfound⟩

/-- **Where heritage has no circle the recursion has an answer.** -/
theorem exists_inherits (hacyclic : ∀ a, ¬ Relation.TransGen p.HasBase a a) (name : String)
    (a : SymbolRef) : ∃ members, p.Inherits name a members := by
  have hfound : ∃ found, p.Along name ((p.directBases a).getD []) found := by
    induction a using (wellFounded_hasBase hacyclic).induction with
    | h a ih => exact exists_along ih
  obtain ⟨found, hfound⟩ := hfound
  exact ⟨_, found, hfound, rfl⟩

/-! ### Symbols in play -/

/-- The symbols of a program are in play where they have keys of their own and their supertypes are
among them. -/
theorem separates_of_distinct
    (hkeys : ∀ a b, a.index < p.symbols.size → b.index < p.symbols.size → p.key a = p.key b → a = b)
    (hbases : ∀ a b, p.HasBase a b → b.index < p.symbols.size) :
    p.Separates {a | a.index < p.symbols.size} :=
  ⟨fun a _ b => hbases a b, fun a ha b hb hkey => .inl (hkeys a b ha hb hkey)⟩

theorem above_subset_of_hasBase (h : p.HasBase a b) : p.above b ⊆ p.above a :=
  fun _ hc => .head h hc

theorem Separates.above_subset (hplay : p.Separates play) (ha : a ∈ play) : p.above a ⊆ play := by
  intro b hb
  induction hb with
  | refl => exact ha
  | tail _ hbase ih => exact hplay.bases _ ih _ hbase

/-- Symbols in play that share a key have the same supertypes. -/
theorem Separates.directBases (hplay : p.Separates play) (ha : a ∈ play) (hb : b ∈ play)
    (hkey : p.key a = p.key b) : p.directBases a = p.directBases b := by
  rcases hplay.apart a ha b hb hkey with rfl | ⟨hmissing, hmissing'⟩
  · rfl
  · rw [directBases_of_missing hmissing, directBases_of_missing hmissing']

/-- What is above a base does not bear the key of the symbol. -/
theorem Separates.key_ne (hplay : p.Separates play)
    (hacyclic : ∀ a, ¬ Relation.TransGen p.HasBase a a) (ha : a ∈ play) (hbase : p.HasBase a b)
    (hc : c ∈ p.above b) : p.key c ≠ p.key a := by
  intro hkey
  have hplays : c ∈ play := hplay.above_subset (hplay.bases a ha b hbase) hc
  rcases hplay.apart c hplays a ha hkey with rfl | ⟨-, hmissing⟩
  · exact hacyclic c (.head' hbase hc)
  · have hexists := hbase.exists
    omega

end Program

namespace Symbols

variable {α β : Type} {p : Program} {play known : Set SymbolRef} {name : String} {a : SymbolRef}
  {s t u : Symbols}

/-! ### What is kept -/

/-- What is kept about some symbols is right. -/
structure Right (p : Program) (known : Set SymbolRef) (s : Symbols) : Prop where
  bases   : ∀ a ∈ known, ∀ bases, s.baseSymbols.get? (p.key a) = some bases → bases = p.directBases a
  members : ∀ a ∈ known, ∀ name members, s.baseMembers.get? (p.key a, name) = some members →
    p.Inherits name a members

/-- What is kept about a symbol in play is as before, or right. -/
structure Improves (p : Program) (play : Set SymbolRef) (s t : Symbols) : Prop where
  bases   : ∀ a ∈ play, t.baseSymbols.get? (p.key a) = s.baseSymbols.get? (p.key a) ∨
    t.baseSymbols.get? (p.key a) = some (p.directBases a)
  members : ∀ a ∈ play, ∀ name,
    t.baseMembers.get? (p.key a, name) = s.baseMembers.get? (p.key a, name) ∨
    ∃ members, t.baseMembers.get? (p.key a, name) = some members ∧ p.Inherits name a members

theorem Right.mono {within : Set SymbolRef} (h : s.Right p known) (hsub : within ⊆ known) :
    s.Right p within :=
  ⟨fun a ha => h.bases a (hsub ha), fun a ha => h.members a (hsub ha)⟩

theorem Improves.refl (p : Program) (play : Set SymbolRef) (s : Symbols) : Improves p play s s :=
  ⟨fun _ _ => .inl rfl, fun _ _ _ => .inl rfl⟩

theorem Improves.trans (h : Improves p play s t) (h' : Improves p play t u) : Improves p play s u := by
  constructor
  · intro a ha
    rcases h'.bases a ha with hsame | hright
    · simpa [hsame] using h.bases a ha
    · exact .inr hright
  · intro a ha name
    rcases h'.members a ha name with hsame | hright
    · simpa [hsame] using h.members a ha name
    · exact .inr hright

/-- What was right stays right. -/
theorem Improves.right (h : Improves p play s t) (hsub : known ⊆ play) (hs : s.Right p known) :
    t.Right p known := by
  constructor
  · intro a ha bases hbases
    rcases h.bases a (hsub ha) with hsame | hright
    · exact hs.bases a ha bases (hsame ▸ hbases)
    · exact Option.some.inj (hbases.symm.trans hright)
  · intro a ha name members hmembers
    rcases h.members a (hsub ha) name with hsame | ⟨members', hkept, hright⟩
    · exact hs.members a ha name members (hsame ▸ hmembers)
    · rwa [Option.some.inj (hmembers.symm.trans hkept)]

/-- A question that is answered as it should be, and by which the tables only improve. -/
def Consults (p : Program) (play : Set SymbolRef) (act : StateM Symbols α) (s : Symbols)
    (post : α → Prop) : Prop :=
  Improves p play s (act s).2 ∧ post (act s).1

theorem consults_pure {x : α} {post : α → Prop} (h : post x) : Consults p play (pure x) s post :=
  ⟨.refl p play s, h⟩

theorem Consults.bind {act : StateM Symbols α} {f : α → StateM Symbols β} {post : α → Prop}
    {post' : β → Prop} (h : Consults p play act s post)
    (hf : ∀ x t, Improves p play s t → post x → Consults p play (f x) t post') :
    Consults p play (act >>= f) s post' := by
  obtain ⟨himproves, hpost⟩ := h
  obtain ⟨himproves', hpost'⟩ := hf (act s).1 (act s).2 himproves hpost
  exact ⟨himproves.trans himproves', hpost'⟩

/-! ### One level of the search -/

theorem run_answer (answer : α) (s : Symbols) : (pure answer : StateM Symbols α) s = (answer, s) :=
  rfl

theorem run_look (look : Symbols → StateM Symbols α) (s : Symbols) : (get >>= look) s = look s s :=
  rfl

theorem run_note (note : Symbols → Symbols) (rest : Unit → StateM Symbols α) (s : Symbols) :
    (modify note >>= rest) s = rest () (note s) := rfl

theorem baseSymbolsOf_consults (hplay : p.Separates play) (ha : a ∈ play)
    (hs : ∀ bases, s.baseSymbols.get? (p.key a) = some bases → bases = p.directBases a) :
    Consults p play (baseSymbolsOf p a) s (· = p.directBases a) := by
  cases hkept : s.baseSymbols.get? (p.key a) with
  | some bases =>
      have hrun : baseSymbolsOf p a s = (bases, s) := by
        simp [baseSymbolsOf, run_look, run_answer, hkept]
      simp [Consults, hrun, Improves.refl, hs bases hkept]
  | none =>
      have hrun : baseSymbolsOf p a s = (p.directBases a, { s with
          baseSymbols := s.baseSymbols.insert (p.key a) (p.directBases a) }) := by
        simp only [baseSymbolsOf, run_look, hkept, run_note, run_answer]
      rw [Consults, hrun]
      refine ⟨⟨fun b hb => ?_, fun _ _ _ => .inl rfl⟩, rfl⟩
      by_cases hkey : p.key b = p.key a
      · simp [Table.get?_insert, hkey, hplay.directBases hb ha hkey]
      · simp [Table.get?_insert, hkey]

/-- The tables with an answer. -/
def keeping (s : Symbols) (key : SymbolKey) (name : String) (members : Option (List SymbolRef)) :
    Symbols :=
  { s with baseMembers := s.baseMembers.insert (key, name) members }

theorem get?_keeping (s : Symbols) (key other : SymbolKey) (name name' : String)
    (members : Option (List SymbolRef)) :
    (s.keeping key name members).baseMembers.get? (other, name')
      = if other = key ∧ name' = name then some members
        else s.baseMembers.get? (other, name') := by
  simp [keeping, Table.get?_insert]

/-- A mark that stands while an answer is looked for leaves no trace once the answer is kept. -/
theorem Improves.around (hplay : p.Separates play) (ha : a ∈ play)
    {mark members : Option (List SymbolRef)}
    (h : Improves p play (s.keeping (p.key a) name mark) t) (hmembers : p.Inherits name a members) :
    Improves p play s (t.keeping (p.key a) name members) := by
  refine ⟨h.bases, fun b hb name' => ?_⟩
  rw [get?_keeping]
  by_cases hsame : p.key b = p.key a ∧ name' = name
  · obtain ⟨hkey, rfl⟩ := hsame
    have hinherits : p.Inherits name' b members := by
      rw [Program.Inherits, hplay.directBases hb ha hkey]
      exact hmembers
    simp [hkey, hinherits]
  · have hmember := h.members b hb name'
    rw [get?_keeping, if_neg hsame] at hmember
    simpa [hsame] using hmember

section Search

variable {ask : SymbolRef → StateM Symbols (Option (List SymbolRef))}

theorem seekMembers_of_kept {members : Option (List SymbolRef)}
    (h : s.baseMembers.get? (p.key a, name) = some members) :
    seekMembers p name ask a s = (members, s) := by
  simp [seekMembers, run_look, run_answer, h]

theorem seekMembers_of_not_kept (h : s.baseMembers.get? (p.key a, name) = none) :
    seekMembers p name ask a s =
      let (found, t) := searchBases p name ask a (s.keeping (p.key a) name none)
      let members := if found.isEmpty then none else some found
      (members, t.keeping (p.key a) name members) := by
  simp only [seekMembers, searchBases, settleMembers, bind, StateT.bind, get, getThe, MonadStateOf.get, StateT.get,
    pure, h, keepBaseMembers, modify, modifyGet, MonadStateOf.modifyGet, StateT.modifyGet, keeping]
  cases baseSymbolsOf p a
    { s with baseMembers := s.baseMembers.insert (p.key a, name) none } with
  | mk bases t => cases bases <;> rfl

variable (hask : ∀ b ∈ play, ∀ s : Symbols, s.Right p (p.above b) →
    Consults p play (ask b) s (p.Inherits name b))

include hask

theorem membersAlong_consults (hplay : p.Separates play) :
    ∀ (bases : List SymbolRef) (s : Symbols), (∀ b ∈ bases, b ∈ play) →
      (∀ b ∈ bases, s.Right p (p.above b)) →
      Consults p play (membersAlong p name ask bases) s (p.Along name bases)
  | [], _, _, _ => consults_pure .nil
  | base :: bases, s, hbases, hs => by
      -- The rest is looked for in tables that the first base has improved.
      have hrest (t : Symbols) (ht : Improves p play s t) :
          Consults p play (membersAlong p name ask bases) t (p.Along name bases) := by
        refine membersAlong_consults hplay bases t
          (fun b hb => hbases b (List.mem_cons_of_mem _ hb)) fun b hb => ?_
        have hb' := List.mem_cons_of_mem base hb
        exact ht.right (hplay.above_subset (hbases b hb')) (hs b hb')
      cases hmember : p.memberNamed base name with
      | some member =>
          have hown : Consults p play (membersAlong p name ask bases >>= fun found =>
              pure ([member] ++ found)) s (p.Along name (base :: bases)) :=
            (hrest s (.refl p play s)).bind fun found _ _ hfound =>
              consults_pure (.own hmember hfound)
          simpa [membersAlong, hmember] using hown
      | none =>
          have habove : Consults p play (ask base >>= fun inherited =>
              membersAlong p name ask bases >>= fun found =>
                pure (inherited.getD [] ++ found)) s (p.Along name (base :: bases)) := by
            refine (hask base (hbases base List.mem_cons_self) s
              (hs base List.mem_cons_self)).bind fun inherited t ht hinherited => ?_
            exact (hrest t ht).bind fun found _ _ hfound =>
              consults_pure (.above hmember hinherited.along hfound)
          simpa [membersAlong, hmember] using habove

/-- What a level finds between the mark and the answer. -/
theorem searchBases_consults (hplay : p.Separates play)
    (hacyclic : ∀ a, ¬ Relation.TransGen p.HasBase a a) (ha : a ∈ play)
    (hs : s.Right p (p.above a)) :
    Consults p play (searchBases p name ask a) (s.keeping (p.key a) name none)
      (p.Along name ((p.directBases a).getD [])) := by
  have hbases : Consults p play (baseSymbolsOf p a) (s.keeping (p.key a) name none)
      (· = p.directBases a) := baseSymbolsOf_consults hplay ha (hs.bases a .refl)
  refine hbases.bind fun _ t ht hbases => ?_
  subst hbases
  cases hbases : p.directBases a with
  | none => exact consults_pure .nil
  | some bases =>
      have hbase (b : SymbolRef) (hb : b ∈ bases) : p.HasBase a b := by
        simpa [Program.HasBase, hbases] using hb
      refine membersAlong_consults hask hplay bases t
        (fun b hb => hplay.bases a ha b (hbase b hb)) fun b hb => ?_
      have hsub := hplay.above_subset (hplay.bases a ha b (hbase b hb))
      have hup := Program.above_subset_of_hasBase (hbase b hb)
      refine ht.right hsub ⟨fun c hc => hs.bases c (hup hc), fun c hc name' members hkept => ?_⟩
      -- Whatever is asked is above one of the bases, and does not bear the mark.
      have hne := hplay.key_ne hacyclic ha (hbase b hb) hc
      rw [get?_keeping, if_neg fun h => hne h.1] at hkept
      exact hs.members c (hup hc) name' members hkept

/-- **One level of the search**: the mark of the symbol gives way to its answer without having been
read. -/
theorem seekMembers_consults (hplay : p.Separates play)
    (hacyclic : ∀ a, ¬ Relation.TransGen p.HasBase a a) (ha : a ∈ play)
    (hs : s.Right p (p.above a)) :
    Consults p play (seekMembers p name ask a) s (p.Inherits name a) := by
  cases hkept : s.baseMembers.get? (p.key a, name) with
  | some members =>
      rw [Consults, seekMembers_of_kept hkept]
      exact ⟨.refl p play s, hs.members a .refl name members hkept⟩
  | none =>
      obtain ⟨himproves, halong⟩ := searchBases_consults hask hplay hacyclic ha hs
      rw [Consults, seekMembers_of_not_kept hkept]
      exact ⟨himproves.around hplay ha ⟨_, halong, rfl⟩, _, halong, rfl⟩

end Search

/-! ### The whole search -/

/-- **Looking for members**: the search ends by itself, so it may be given whatever answers further
down, and there the recursion has some. -/
theorem findBaseMembers_consults (hplay : p.Separates play)
    (hacyclic : ∀ a, ¬ Relation.TransGen p.HasBase a a) (ha : a ∈ play)
    (hs : s.Right p (p.above a)) :
    Consults p play (findBaseMembers p a name) s (p.Inherits name a) := by
  choose answer hanswer using Program.exists_inherits (p := p) hacyclic name
  have hlevels (depth : Nat) : ∀ b ∈ play, ∀ t : Symbols, t.Right p (p.above b) →
      Consults p play ((seekMembers p name)^[depth] (fun b => pure (answer b)) b) t
        (p.Inherits name b) := by
    induction depth with
    | zero => exact fun b _ _ _ => consults_pure (hanswer b)
    | succ depth ih =>
        intro b hb t ht
        rw [Function.iterate_succ_apply']
        exact seekMembers_consults ih hplay hacyclic hb ht
  have hsame : findBaseMembers p a name s
      = (seekMembers p name)^[p.symbols.size + 2] (fun b => pure (answer b)) a s := by
    rw [findBaseMembers, findBaseMembersWithin_eq_iterate]
    exact findBaseMembers_ends _ _
  rw [Consults, hsame]
  exact hlevels _ a ha s hs

/-! ### After any questions -/

/-- A question about heritage. -/
inductive Inquiry where
  | bases (symbol : SymbolRef)
  | members (symbol : SymbolRef) (name : String)

/-- The symbol that is asked about. -/
def Inquiry.symbol : Inquiry → SymbolRef
  | bases symbol     => symbol
  | members symbol _ => symbol

/-- Ask. -/
def Inquiry.ask (p : Program) : Inquiry → StateM Symbols (Option (List SymbolRef))
  | bases symbol        => baseSymbolsOf p symbol
  | members symbol name => findBaseMembers p symbol name

/-- The tables after questions, from new ones. -/
def inquired (p : Program) (inquiries : List Inquiry) : Symbols :=
  inquiries.foldl (fun s inquiry => (inquiry.ask p s).2) {}

theorem inquired_right (hplay : p.Separates play)
    (hacyclic : ∀ a, ¬ Relation.TransGen p.HasBase a a) {inquiries : List Inquiry}
    (hinquiries : ∀ inquiry ∈ inquiries, inquiry.symbol ∈ play) :
    (inquired p inquiries).Right p play := by
  induction inquiries using List.reverseRecOn with
  | nil => exact ⟨nofun, nofun⟩
  | append_singleton inquiries inquiry ih =>
      have hright := ih fun other hother => hinquiries other (List.mem_append_left _ hother)
      have hsymbol : inquiry.symbol ∈ play := hinquiries inquiry (by simp)
      have himproves : Improves p play (inquired p inquiries)
          (inquiry.ask p (inquired p inquiries)).2 := by
        cases inquiry with
        | bases symbol => exact (baseSymbolsOf_consults hplay hsymbol (hright.bases _ hsymbol)).1
        | members symbol name =>
            exact (findBaseMembers_consults hplay hacyclic hsymbol
              (hright.mono (hplay.above_subset hsymbol))).1
      simpa [inquired] using himproves.right subset_rfl hright

/-- **Remembering makes no difference.**  In a program in which symbols have keys of their own and
none is above itself, and after any questions about supertypes and their members, the answer to a
question for members is that of the recursion without memory. -/
theorem findBaseMembers_after (hplay : p.Separates play)
    (hacyclic : ∀ a, ¬ Relation.TransGen p.HasBase a a) {inquiries : List Inquiry}
    (hinquiries : ∀ inquiry ∈ inquiries, inquiry.symbol ∈ play) (ha : a ∈ play)
    {members : Option (List SymbolRef)} :
    (findBaseMembers p a name (inquired p inquiries)).1 = members ↔ p.Inherits name a members := by
  have hright := inquired_right hplay hacyclic hinquiries
  have hinherits : p.Inherits name a (findBaseMembers p a name (inquired p inquiries)).1 :=
    (findBaseMembers_consults hplay hacyclic ha (hright.mono (hplay.above_subset ha))).2
  constructor
  · rintro rfl
    exact hinherits
  · exact hinherits.unique

/-- Two interfaces extend the one that has the method, and a last one extends both. -/
def diamond : Program :=
  match Program.ofSteps
      [.file ⟨"/p/a.ts"⟩ "A{m}B:A{}C:A{}D:B,C{}",
       .node ⟨0⟩ .interfaceDeclaration 0 4, .node ⟨1⟩ .methodSignature 2 3,
       .node ⟨0⟩ .interfaceDeclaration 4 9, .node ⟨0⟩ .interfaceDeclaration 9 14,
       .node ⟨0⟩ .interfaceDeclaration 14 21,
       .symbol "A" .ofInterface, .symbol "m" .method,
       .declare ⟨0⟩ ⟨1⟩, .declare ⟨1⟩ ⟨2⟩, .member ⟨0⟩ ⟨1⟩,
       .symbol "B" .ofInterface, .declare ⟨2⟩ ⟨3⟩,
       .symbol "C" .ofInterface, .declare ⟨3⟩ ⟨4⟩,
       .symbol "D" .ofInterface, .declare ⟨4⟩ ⟨5⟩,
       .objectType (some ⟨0⟩), .objectType (some ⟨2⟩), .objectType (some ⟨3⟩), .objectType (some ⟨4⟩),
       .declaredType ⟨2⟩ ⟨1⟩, .baseType ⟨1⟩ ⟨0⟩, .declaredType ⟨3⟩ ⟨2⟩, .baseType ⟨2⟩ ⟨0⟩,
       .declaredType ⟨4⟩ ⟨3⟩, .baseType ⟨3⟩ ⟨1⟩, .baseType ⟨3⟩ ⟨2⟩] with
    | .ok p    => p
    | .error _ => .empty

/-- The method comes to the last interface twice, once for each path, also when a part of the way is
known already. -/
theorem findBaseMembers_after_diamond :
    (findBaseMembers diamond ⟨4⟩ "m" (inquired diamond [.members ⟨2⟩ "m", .bases ⟨3⟩])).1
      = some [⟨1⟩, ⟨1⟩] ∧
    diamond.Inherits "m" ⟨4⟩ (some [⟨1⟩, ⟨1⟩]) := by
  have hsize : diamond.symbols.size = 5 := by decide +kernel
  have hkeys : ∀ i < 5, ∀ j < 5, diamond.key ⟨i⟩ = diamond.key ⟨j⟩ → i = j := by decide +kernel
  have hlower : ∀ i < 5, ∀ b ∈ (diamond.directBases ⟨i⟩).getD [], b.index < i := by decide +kernel
  have hbase (a b : SymbolRef) (h : diamond.HasBase a b) : b.index < a.index :=
    hlower a.index (hsize ▸ h.exists) b h
  have hplay : diamond.Separates {a | a.index < diamond.symbols.size} := by
    refine Program.separates_of_distinct (fun a b ha hb hkey => ?_)
      fun a b h => (hbase a b h).trans h.exists
    exact congrArg SymbolRef.mk (hkeys a.index (hsize ▸ ha) b.index (hsize ▸ hb) hkey)
  have hacyclic (a : SymbolRef) : ¬ Relation.TransGen diamond.HasBase a a := by
    have hlt {b : SymbolRef} (h : Relation.TransGen diamond.HasBase a b) : b.index < a.index := by
      induction h with
      | single h => exact hbase _ _ h
      | tail _ h ih => exact (hbase _ _ h).trans ih
    exact fun h => Nat.lt_irrefl _ (hlt h)
  have hanswer : (findBaseMembers diamond ⟨4⟩ "m"
      (inquired diamond [.members ⟨2⟩ "m", .bases ⟨3⟩])).1 = some [⟨1⟩, ⟨1⟩] := by
    decide +kernel
  refine ⟨hanswer, (findBaseMembers_after hplay hacyclic ?_ ?_).mp hanswer⟩
  · simp [Inquiry.symbol, hsize]
  · simp [hsize]

end Symbols

end SymbolGraph
