import SymbolGraph.Program.Build
import SymbolGraph.Proofs.Graph.Encoding
import SymbolGraph.Symbol.Key

/-!
# Proofs — Symbol — keys and declaration sites

The key of a symbol is the hash of a text, and the text is the path, start and end of one declaration
after the other.  Nothing in it says where a path ends, so a path that contains written coordinates
can be read as several declarations.  Where no path begins with the written coordinates of a
declaration of the other symbol, the text tells the declarations.

* `Program.sites`: the coordinates of the declarations of a symbol.
* `Text.cut_cases`: two ways to cut a text at a character.
* `Program.overlap_cases`: where written numbers may overlap.
* `Program.Apart`: neither of two paths begins with the written site of the other; paths without
  semicolons are apart.
* `Program.coordinates_injective`: different lists of coordinates are written differently, unless a
  path begins like a site of the other list.
* `Program.sites_eq_of_keyText`: so keys tell declaration sites.
  `Program.not_forall_sites_eq`: and not always.
-/

namespace SymbolGraph

/-- Two ways to cut a text at a character that is not before the first cut: the second cut is at the
same place or after it. -/
theorem Text.cut_cases {x y : Char} {before after after' : List Char} :
    ∀ {before' : List Char}, y ∉ before → before ++ x :: after = before' ++ y :: after' →
      (x = y ∧ after = after') ∨
        ∃ between, before' = before ++ x :: between ∧ after = between ++ y :: after' := by
  induction before with
  | nil =>
      rintro (_ | ⟨c, before'⟩) - h
      · exact .inl (List.cons.inj h)
      · obtain ⟨rfl, rfl⟩ := List.cons.inj h
        exact .inr ⟨before', rfl, rfl⟩
  | cons c before ih =>
      rintro (_ | ⟨c', before'⟩) hy h
      · exact absurd (List.cons.inj h).1.symm fun heq => hy (heq ▸ List.mem_cons_self)
      · obtain ⟨rfl, hrest⟩ := List.cons.inj h
        rcases ih (fun hmem => hy (List.mem_cons_of_mem _ hmem)) hrest with
          hsame | ⟨between, rfl, rfl⟩
        · exact .inl hsame
        · exact .inr ⟨between, rfl, rfl⟩

namespace Program

variable {p : Program} {a b : SymbolRef}

/-- Where a symbol is declared. -/
def sites (p : Program) (symbol : SymbolRef) : List (String × Nat × Nat) :=
  (p.declarations symbol).map p.coordinates

theorem keyText_eq (p : Program) (symbol : SymbolRef) :
    p.keyText symbol = (p.sites symbol).flatMap coordinateText := by
  rw [keyText, sites, List.flatMap_map]

/-! ### Written numbers -/

section Numbers

variable {start stop start' stop' : Nat} {rest rest' : List Char}

theorem colon_not_mem_toDigits (n : Nat) : ':' ∉ Nat.toDigits 10 n :=
  fun h => absurd (Json.isDigit_of_mem_render_num _ h) (by decide)

/-- The start and the end of coordinates in writing. -/
def boundsText (start stop : Nat) : List Char :=
  ':' :: (Nat.toDigits 10 start ++ ':' :: (Nat.toDigits 10 stop ++ [';']))

theorem boundsText_append : boundsText start stop ++ rest
    = ':' :: (Nat.toDigits 10 start ++ ':' :: (Nat.toDigits 10 stop ++ ';' :: rest)) := by
  simp [boundsText]

theorem coordinateText_eq (path : String) (start stop : Nat) :
    coordinateText (path, start, stop) = path.toList ++ boundsText start stop := rfl

/-- Written bounds show their end. -/
theorem boundsText_delimited
    (h : boundsText start stop ++ rest = boundsText start' stop' ++ rest') :
    start = start' ∧ stop = stop' ∧ rest = rest' := by
  rw [boundsText_append, boundsText_append] at h
  obtain ⟨hstart, h⟩ := Json.toDigits_delimited (Json.noDigit_cons (by decide))
    (Json.noDigit_cons (by decide)) (List.cons.inj h).2
  obtain ⟨hstop, h⟩ := Json.toDigits_delimited (Json.noDigit_cons (by decide))
    (Json.noDigit_cons (by decide)) (List.cons.inj h).2
  exact ⟨hstart, hstop, (List.cons.inj h).2⟩

/-- **Written bounds do not overlap.**  Others begin together with them or after their end. -/
theorem overlap_cases {between : List Char}
    (h : boundsText start stop ++ rest = between ++ (boundsText start' stop' ++ rest')) :
    between = [] ∨ boundsText start stop <+: between := by
  rw [boundsText_append, boundsText_append] at h
  cases between with
  | nil => exact .inl rfl
  | cons c between =>
      obtain ⟨rfl, hstart⟩ := List.cons.inj h
      rcases Text.cut_cases (colon_not_mem_toDigits start) hstart with
        ⟨-, hstop⟩ | ⟨afterStart, rfl, hstop⟩
      · -- The start of the others would stand where the end of these does, with a semicolon after it.
        obtain ⟨-, hend⟩ := Json.toDigits_delimited (Json.noDigit_cons (by decide))
          (Json.noDigit_cons (by decide)) hstop
        exact absurd (List.cons.inj hend).1 (by decide)
      · rcases Text.cut_cases (colon_not_mem_toDigits stop) hstop with
          ⟨heq, -⟩ | ⟨afterStop, rfl, -⟩
        · exact absurd heq (by decide)
        · exact .inr ⟨afterStop, by simp [boundsText]⟩

end Numbers

/-! ### Written coordinates -/

/-- The path of neither site begins with the other site in writing. -/
def Apart (site site' : String × Nat × Nat) : Prop :=
  ¬ coordinateText site <+: site'.1.toList ∧ ¬ coordinateText site' <+: site.1.toList

/-- Paths without semicolons keep sites apart. -/
theorem apart_of_not_mem {site site' : String × Nat × Nat} (h : ';' ∉ site.1.toList)
    (h' : ';' ∉ site'.1.toList) : Apart site site' := by
  have hmem (other : String × Nat × Nat) : ';' ∈ coordinateText other := by
    obtain ⟨path, start, stop⟩ := other
    simp [coordinateText]
  exact ⟨fun hpre => h' (hpre.subset (hmem site)),
    fun hpre => h (hpre.subset (hmem site'))⟩

/-- A written site shows its end to those that it is apart from. -/
theorem coordinateText_delimited {site site' : String × Nat × Nat} {rest rest' : List Char}
    (hapart : Apart site site') (h : coordinateText site ++ rest = coordinateText site' ++ rest') :
    site = site' ∧ rest = rest' := by
  obtain ⟨path, start, stop⟩ := site
  obtain ⟨path', start', stop'⟩ := site'
  simp only [Apart, coordinateText_eq] at hapart
  rw [coordinateText_eq, coordinateText_eq, List.append_assoc, List.append_assoc] at h
  -- One path begins with the other one, and what comes after the shorter one goes on in the longer.
  have hpaths : path.toList = path'.toList ∧
      boundsText start stop ++ rest = boundsText start' stop' ++ rest' := by
    rcases List.append_eq_append_iff.mp h with ⟨between, hpath, h⟩ | ⟨between, hpath, h⟩
    · rcases overlap_cases h with rfl | hbetween
      · exact ⟨(hpath.trans (List.append_nil _)).symm, h⟩
      · exact absurd (hpath ▸ (List.prefix_append_right_inj _).mpr hbetween) hapart.1
    · rcases overlap_cases h with rfl | hbetween
      · exact ⟨hpath.trans (List.append_nil _), h.symm⟩
      · exact absurd (hpath ▸ (List.prefix_append_right_inj _).mpr hbetween) hapart.2
  obtain ⟨rfl, rfl, rfl⟩ := boundsText_delimited hpaths.2
  rw [String.toList_inj.mp hpaths.1]
  exact ⟨rfl, rfl⟩

theorem coordinateText_ne_nil (site : String × Nat × Nat) : coordinateText site ≠ [] := by
  obtain ⟨path, start, stop⟩ := site
  simp [coordinateText]

/-- **Written coordinates tell the sites**, if none begins like a site of the other list. -/
theorem coordinates_injective : ∀ {sites sites' : List (String × Nat × Nat)},
    (∀ site ∈ sites, ∀ site' ∈ sites', Apart site site') →
      sites.flatMap coordinateText = sites'.flatMap coordinateText → sites = sites'
  | [], [], _, _ => rfl
  | [], site' :: _, _, h => by
      rw [List.flatMap_cons] at h
      exact absurd (List.append_eq_nil_iff.mp h.symm).1 (coordinateText_ne_nil site')
  | site :: _, [], _, h => by
      rw [List.flatMap_cons] at h
      exact absurd (List.append_eq_nil_iff.mp h).1 (coordinateText_ne_nil site)
  | site :: sites, site' :: sites', hapart, h => by
      rw [List.flatMap_cons, List.flatMap_cons] at h
      obtain ⟨rfl, hrest⟩ := coordinateText_delimited
        (hapart site List.mem_cons_self site' List.mem_cons_self) h
      rw [coordinates_injective (fun other hother other' hother' =>
        hapart other (List.mem_cons_of_mem _ hother) other' (List.mem_cons_of_mem _ hother')) hrest]

/-! ### Keys -/

/-- A symbol that is declared has the hash of its text as its key. -/
theorem key_of_declared (h : p.declarations a ≠ []) :
    p.key a = ⟨Digest.sha256 (Text.utf8 (p.keyText a))⟩ := by
  unfold key
  rw [if_neg (by simpa using h)]

/-- **Keys tell declaration sites** where no path begins with a written site of the other symbol: the
hashed bytes do, and so do the keys, as long as the hash tells the bytes. -/
theorem sites_eq_of_keyText (ha : p.declarations a ≠ []) (hb : p.declarations b ≠ [])
    (hapart : ∀ site ∈ p.sites a, ∀ site' ∈ p.sites b, Apart site site') :
    (Text.utf8 (p.keyText a) = Text.utf8 (p.keyText b) → p.sites a = p.sites b) ∧
      ((Digest.sha256 (Text.utf8 (p.keyText a)) = Digest.sha256 (Text.utf8 (p.keyText b)) →
          Text.utf8 (p.keyText a) = Text.utf8 (p.keyText b)) →
        p.key a = p.key b → p.sites a = p.sites b) := by
  have hbytes (h : Text.utf8 (p.keyText a) = Text.utf8 (p.keyText b)) : p.sites a = p.sites b := by
    have htext := Text.utf8_injective h
    rw [keyText_eq, keyText_eq] at htext
    exact coordinates_injective hapart htext
  refine ⟨hbytes, fun hhash hkey => hbytes (hhash ?_)⟩
  rw [key_of_declared ha, key_of_declared hb] at hkey
  exact SymbolKey.mk.inj hkey

/-- Two variables in one file. -/
def twoVariables : Program :=
  (ofSteps [.file ⟨"/p/a.ts"⟩ "let x, y",
    .nodeAt ⟨0⟩ .variableDeclaration "x" 0, .symbol "x" .blockScopedVariable, .declare ⟨0⟩ ⟨1⟩,
    .nodeAt ⟨0⟩ .variableDeclaration "y" 0, .symbol "y" .blockScopedVariable,
    .declare ⟨1⟩ ⟨2⟩]).toOption.getD .empty

theorem twoVariables_apart :
    Text.utf8 (twoVariables.keyText ⟨0⟩) ≠ Text.utf8 (twoVariables.keyText ⟨1⟩) := by
  have hsites : twoVariables.sites ⟨0⟩ = [("/p/a.ts", 4, 5)] ∧
      twoVariables.sites ⟨1⟩ = [("/p/a.ts", 7, 8)] := by
    decide +kernel
  have hapart : ∀ site ∈ twoVariables.sites ⟨0⟩, ∀ site' ∈ twoVariables.sites ⟨1⟩,
      Apart site site' := by
    rw [hsites.1, hsites.2]
    simpa using apart_of_not_mem (by decide) (by decide)
  intro h
  have hsame := (sites_eq_of_keyText (by decide +kernel) (by decide +kernel) hapart).1 h
  rw [hsites.1, hsites.2] at hsame
  exact absurd hsame (by decide)

/-- A variable `a` that is declared twice in one file, and another one that is declared in a file whose
path begins with the first declaration. -/
def mistakenVariables : Program :=
  (ofSteps [.file ⟨"/p/a.ts"⟩ "a;a", .file ⟨"/p/a.ts:0:1;/p/a.ts"⟩ "b;b",
    .nodeAt ⟨0⟩ .variableDeclaration "a" 0, .nodeAt ⟨0⟩ .variableDeclaration "a" 1,
    .symbol "a" .functionScopedVariable, .declare ⟨0⟩ ⟨2⟩, .declare ⟨0⟩ ⟨3⟩,
    .nodeAt ⟨1⟩ .variableDeclaration "b" 1, .symbol "b" .functionScopedVariable,
    .declare ⟨1⟩ ⟨4⟩]).toOption.getD .empty

/-- **Different sites may be written alike.** -/
theorem not_forall_sites_eq : ¬ ∀ (p : Program) (a b : SymbolRef),
    p.declarations a ≠ [] → p.declarations b ≠ [] →
    Text.utf8 (p.keyText a) = Text.utf8 (p.keyText b) → p.sites a = p.sites b := by
  intro hall
  have hfacts : mistakenVariables.declarations ⟨0⟩ ≠ [] ∧ mistakenVariables.declarations ⟨1⟩ ≠ [] ∧
      Text.utf8 (mistakenVariables.keyText ⟨0⟩) = Text.utf8 (mistakenVariables.keyText ⟨1⟩) ∧
      mistakenVariables.sites ⟨0⟩ ≠ mistakenVariables.sites ⟨1⟩ := by
    decide +kernel
  obtain ⟨ha, hb, hbytes, hsites⟩ := hfacts
  exact hsites (hall mistakenVariables ⟨0⟩ ⟨1⟩ ha hb hbytes)

end Program

end SymbolGraph
