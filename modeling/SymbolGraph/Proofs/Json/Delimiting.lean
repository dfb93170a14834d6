import SymbolGraph.Json.Value
import SymbolGraph.Json.Token
import Mathlib.Tactic.SplitIfs

/-!
# Proofs — Json — a written value shows its end

The compact form of a value tells both what the value is and where it ends: a text that begins with a
value, and goes on with something that is no digit, begins with one value only.  Strings show their
end because every character is written in one of three ways, none of which begins another, and none
of which begins with a quote; the other values because their first character tells their sort.

* `escaped_cases`: the three ways to write a character.
* `Json.Opens`: the characters a value may begin with.
* `render_delimited`, `renderItems_delimited`, `renderMembers_delimited`: a value, the items of an
  array and the members of an object with what follows them.
* `render_injective`: different values are written differently.
* `newline_not_mem_render`: a value is written on one line.
-/

namespace SymbolGraph.Json

open Token

/-- What holds of a value when it holds of what is inside it holds of every value. -/
theorem inwards {motive : Json → Prop} (null : motive .null) (bool : ∀ value, motive (.bool value))
    (num : ∀ n, motive (.num n)) (str : ∀ s, motive (.str s))
    (arr : ∀ items, (∀ v ∈ items, motive v) → motive (.arr items))
    (obj : ∀ members, (∀ m ∈ members, motive m.2) → motive (.obj members)) : ∀ v, motive v
  | .null => null
  | .bool value => bool value
  | .num n => num n
  | .str s => str s
  | .arr items => arr items fun v _ => inwards null bool num str arr obj v
  | .obj members => obj members fun m _ => inwards null bool num str arr obj m.2
termination_by v => sizeOf v
decreasing_by
  · have hitem := List.sizeOf_lt_of_mem ‹_›
    simp only [Json.arr.sizeOf_spec]
    omega
  · have hmember := List.sizeOf_lt_of_mem ‹_›
    obtain ⟨key, v⟩ := m
    simp only [Json.obj.sizeOf_spec, Prod.mk.sizeOf_spec] at hmember ⊢
    omega

/-! ### Characters and strings -/

theorem hexFour_hexPair : ∀ {n : Nat}, n < 0x20 →
    hexFour '0' '0' (Nat.digitChar (n / 16)) (Nat.digitChar (n % 16)) = some n := by
  decide

/-- A character stands for itself, or behind a backslash, or as a number. -/
theorem escaped_cases (c : Char) :
    (escaped c = [c] ∧ c ≠ '"' ∧ c ≠ '\\' ∧ c ≠ '\n') ∨
    (∃ e, escaped c = ['\\', e] ∧ shortEscape e = some c ∧ e ≠ 'u' ∧ e ≠ '\n') ∨
    ∃ x y, escaped c = ['\\', 'u', '0', '0', x, y] ∧ hexFour '0' '0' x y = some c.toNat ∧
      x ≠ '\n' ∧ y ≠ '\n' := by
  have hdigit : ∀ n < 0x20, Nat.digitChar (n / 16) ≠ '\n' ∧ Nat.digitChar (n % 16) ≠ '\n' := by
    decide
  generalize hwritten : escaped c = written
  unfold escaped at hwritten
  split_ifs at hwritten with hquote hbackslash h3 h4 hnewline h6 h7 hcontrol <;> subst hwritten
  · exact .inr (.inl ⟨'"', rfl, congrArg some hquote.symm, by decide, by decide⟩)
  · exact .inr (.inl ⟨'\\', rfl, congrArg some hbackslash.symm, by decide, by decide⟩)
  · exact .inr (.inl ⟨'b', rfl, congrArg some h3.symm, by decide, by decide⟩)
  · exact .inr (.inl ⟨'f', rfl, congrArg some h4.symm, by decide, by decide⟩)
  · exact .inr (.inl ⟨'n', rfl, congrArg some hnewline.symm, by decide, by decide⟩)
  · exact .inr (.inl ⟨'r', rfl, congrArg some h6.symm, by decide, by decide⟩)
  · exact .inr (.inl ⟨'t', rfl, congrArg some h7.symm, by decide, by decide⟩)
  · exact .inr (.inr ⟨_, _, rfl, hexFour_hexPair hcontrol, hdigit _ hcontrol⟩)
  · exact .inl ⟨rfl, hquote, hbackslash, hnewline⟩

/-- No way to write a character begins another. -/
theorem escaped_delimited {c d : Char} {r r' : List Char} (h : escaped c ++ r = escaped d ++ r') :
    c = d ∧ r = r' := by
  obtain ⟨hc, -, hc', -⟩ | ⟨e, hc, hshort, hu, -⟩ | ⟨x, y, hc, hhex, -⟩ := escaped_cases c <;>
  obtain ⟨hd, -, hd', -⟩ | ⟨e', hd, hshort', hu', -⟩ | ⟨x', y', hd, hhex', -⟩ := escaped_cases d <;>
  rw [hc, hd] at h
  · exact List.cons.inj h
  · exact absurd (List.cons.inj h).1 hc'
  · exact absurd (List.cons.inj h).1 hc'
  · exact absurd (List.cons.inj h).1.symm hd'
  · obtain ⟨-, rfl, hr⟩ : '\\' = '\\' ∧ e = e' ∧ r = r' := by simpa using h
    exact ⟨Option.some.inj (hshort.symm.trans hshort'), hr⟩
  · exact absurd (List.cons.inj (List.cons.inj h).2).1 hu
  · exact absurd (List.cons.inj h).1.symm hd'
  · exact absurd (List.cons.inj (List.cons.inj h).2).1.symm hu'
  · obtain ⟨rfl, rfl, hr⟩ : x = x' ∧ y = y' ∧ r = r' := by simpa using h
    exact ⟨Char.toNat_inj.mp (Option.some.inj (hhex.symm.trans hhex')), hr⟩

/-- A written character does not begin with a quote. -/
theorem escaped_append_ne_quote {c : Char} {r r' : List Char} : escaped c ++ r ≠ '"' :: r' := by
  obtain ⟨hc, hquote, -⟩ | ⟨e, hc, -⟩ | ⟨x, y, hc, -⟩ := escaped_cases c <;> rw [hc] <;> intro h
  · exact hquote (List.cons.inj h).1
  · exact absurd (List.cons.inj h).1 (by decide)
  · exact absurd (List.cons.inj h).1 (by decide)

theorem newline_not_mem_escaped (c : Char) : '\n' ∉ escaped c := by
  obtain ⟨hc, -, -, hn⟩ | ⟨e, hc, -, -, hn⟩ | ⟨x, y, hc, -, hx, hy⟩ := escaped_cases c <;> rw [hc]
  · simpa using hn.symm
  · simpa using hn.symm
  · simpa using ⟨hx.symm, hy.symm⟩

theorem flatMap_escaped_delimited {r r' : List Char} : ∀ {text text' : List Char},
    text.flatMap escaped ++ '"' :: r = text'.flatMap escaped ++ '"' :: r' → text = text' ∧ r = r'
  | [], [], h => ⟨rfl, (List.cons.inj h).2⟩
  | [], d :: text', h => by
      rw [List.flatMap_cons, List.append_assoc] at h
      exact absurd h.symm escaped_append_ne_quote
  | c :: text, [], h => by
      rw [List.flatMap_cons, List.append_assoc] at h
      exact absurd h escaped_append_ne_quote
  | c :: text, d :: text', h => by
      rw [List.flatMap_cons, List.flatMap_cons, List.append_assoc, List.append_assoc] at h
      obtain ⟨rfl, hrest⟩ := escaped_delimited h
      obtain ⟨rfl, hr⟩ := flatMap_escaped_delimited hrest
      exact ⟨rfl, hr⟩

/-- A text in quotes shows its end. -/
theorem quoted_delimited {s s' : String} {r r' : List Char} (h : quoted s ++ r = quoted s' ++ r') :
    s = s' ∧ r = r' := by
  unfold quoted at h
  simp only [List.cons_append, List.append_assoc, List.nil_append, List.cons.injEq, true_and] at h
  obtain ⟨hs, hr⟩ := flatMap_escaped_delimited h
  exact ⟨String.toList_inj.mp hs, hr⟩

/-! ### Numbers -/

/-- The text does not go on with a digit. -/
def NoDigit (rest : List Char) : Prop := ∀ c ∈ rest.head?, c.isDigit = false

/-- Digits that a text without a digit follows are all its first digits. -/
theorem takeWhile_isDigit {digits rest : List Char} (hd : ∀ c ∈ digits, c.isDigit = true)
    (hr : NoDigit rest) : (digits ++ rest).takeWhile Char.isDigit = digits := by
  rw [List.takeWhile_append_of_pos hd]
  cases rest with
  | nil => simp
  | cons c rest => simp [hr c rfl]

theorem isDigit_of_mem_render_num {n : Nat} : ∀ c ∈ Nat.toDigits 10 n, c.isDigit = true :=
  fun _ hc => Nat.isDigit_of_mem_toDigits (by decide) (by decide) hc

/-- A number shows its end where no digit follows. -/
theorem toDigits_delimited {n n' : Nat} {r r' : List Char} (hr : NoDigit r) (hr' : NoDigit r')
    (h : Nat.toDigits 10 n ++ r = Nat.toDigits 10 n' ++ r') : n = n' ∧ r = r' := by
  have hdigits : Nat.toDigits 10 n = Nat.toDigits 10 n' := by
    rw [← takeWhile_isDigit isDigit_of_mem_render_num hr, h,
      takeWhile_isDigit isDigit_of_mem_render_num hr']
  refine ⟨?_, List.append_cancel_left (hdigits ▸ h)⟩
  rw [← Nat.ofDigitChars_ten_toDigits (n := n), hdigits, Nat.ofDigitChars_ten_toDigits]

/-! ### Values -/

/-- The characters a value may begin with. -/
def Opens : Json → Char → Prop
  | .null, c       => c = 'n'
  | .bool true, c  => c = 't'
  | .bool false, c => c = 'f'
  | .num _, c      => c.isDigit = true
  | .str _, c      => c = '"'
  | .arr _, c      => c = '['
  | .obj _, c      => c = '\x7b'

theorem render_opens (v : Json) : ∃ c rest, v.render = c :: rest ∧ v.Opens c := by
  cases v with
  | null => exact ⟨_, _, rfl, rfl⟩
  | bool value =>
      cases value with
      | false => exact ⟨_, _, rfl, rfl⟩
      | true => exact ⟨_, _, rfl, rfl⟩
  | num n =>
      obtain ⟨c, rest, hn⟩ := List.exists_cons_of_ne_nil (Nat.toDigits_ne_nil (n := n) (b := 10))
      refine ⟨c, rest, by rw [render, hn], isDigit_of_mem_render_num (n := n) c ?_⟩
      rw [hn]
      exact List.mem_cons_self
  | str s => exact ⟨_, _, rfl, rfl⟩
  | arr items => exact ⟨_, _, by rw [render], rfl⟩
  | obj members => exact ⟨_, _, by rw [render], rfl⟩

/-- Two values with one text begin with the same character. -/
theorem opens_of_render_append {v v' : Json} {r r' : List Char} (h : v.render ++ r = v'.render ++ r') :
    ∃ c, v.Opens c ∧ v'.Opens c := by
  obtain ⟨c, rest, hv, hc⟩ := v.render_opens
  obtain ⟨c', rest', hv', hc'⟩ := v'.render_opens
  rw [hv, hv'] at h
  obtain rfl := (List.cons.inj h).1
  exact ⟨c, hc, hc'⟩

/-! ### Lists -/

section Joined

variable {α : Type} {write : α → List Char}

/-- The parts of a list with commas between them. -/
def joined (write : α → List Char) : List α → List Char
  | []           => []
  | [a]          => write a
  | a :: b :: as => write a ++ ',' :: joined write (b :: as)

theorem renderItems_eq_joined : ∀ items, renderItems items = joined render items
  | []                    => by rw [renderItems, joined]
  | [item]                => by rw [renderItems, joined]
  | item :: next :: items => by
      rw [renderItems, joined, renderItems_eq_joined (next :: items)]
      exact List.cons_ne_nil _ _

theorem renderMembers_eq_joined : ∀ members, renderMembers members = joined renderMember members
  | []                        => by rw [renderMembers, joined]
  | [member]                  => by rw [renderMembers, joined]
  | member :: next :: members => by
      rw [renderMembers, joined, renderMembers_eq_joined (next :: members)]
      exact List.cons_ne_nil _ _

/-- A part shows its end where no digit follows. -/
def Delimits (write : α → List Char) (a : α) : Prop :=
  ∀ a' {r r'}, NoDigit r → NoDigit r' → write a ++ r = write a' ++ r' → a = a' ∧ r = r'

theorem noDigit_cons {c : Char} {rest : List Char} (h : c.isDigit = false) : NoDigit (c :: rest) := by
  intro d hd
  rw [← Option.some.inj hd]
  exact h

/-- **A list shows its end** when its parts do and do not begin with what closes it. -/
theorem joined_delimited {close : Char} (hclose : close.isDigit = false) (hcomma : close ≠ ',')
    (hopens : ∀ a r r', write a ++ r ≠ close :: r') {r r' : List Char} :
    ∀ {as as' : List α}, (∀ a ∈ as, Delimits write a) →
      joined write as ++ close :: r = joined write as' ++ close :: r' → as = as' ∧ r = r'
  | [], [], _, h => ⟨rfl, (List.cons.inj h).2⟩
  | [], [a'], _, h => absurd h.symm (hopens _ _ _)
  | [], a' :: b' :: as', _, h => by
      rw [joined, joined, List.append_assoc] at h
      exact absurd h.symm (hopens _ _ _)
  | [a], [], _, h => absurd h (hopens _ _ _)
  | a :: b :: as, [], _, h => by
      rw [joined, joined, List.append_assoc] at h
      exact absurd h (hopens _ _ _)
  | [a], [a'], ha, h => by
      obtain ⟨rfl, hr⟩ := ha a List.mem_cons_self a' (noDigit_cons hclose) (noDigit_cons hclose) h
      exact ⟨rfl, (List.cons.inj hr).2⟩
  | [a], a' :: b' :: as', ha, h => by
      rw [joined, joined, List.append_assoc] at h
      obtain ⟨-, hr⟩ := ha a List.mem_cons_self a' (noDigit_cons hclose) (noDigit_cons rfl) h
      exact absurd (List.cons.inj hr).1 hcomma
  | a :: b :: as, [a'], ha, h => by
      rw [joined, joined, List.append_assoc] at h
      obtain ⟨-, hr⟩ := ha a List.mem_cons_self a' (noDigit_cons rfl) (noDigit_cons hclose) h
      exact absurd (List.cons.inj hr).1.symm hcomma
  | a :: b :: as, a' :: b' :: as', ha, h => by
      rw [joined, joined, List.append_assoc, List.append_assoc] at h
      obtain ⟨rfl, hr⟩ := ha a List.mem_cons_self a' (noDigit_cons rfl) (noDigit_cons rfl) h
      obtain ⟨hrest, hr⟩ := joined_delimited hclose hcomma hopens
        (fun c hc => ha c (List.mem_cons_of_mem _ hc)) (List.cons.inj hr).2
      exact ⟨by rw [hrest], hr⟩

end Joined

theorem renderMember_delimited {key : String} {v : Json} (h : Delimits render v) :
    Delimits renderMember (key, v) := by
  rintro ⟨key', v'⟩ r r' hr hr' heq
  rw [renderMember, renderMember, List.append_assoc, List.append_assoc] at heq
  obtain ⟨rfl, hvalue⟩ := quoted_delimited heq
  obtain ⟨rfl, hrest⟩ := h v' hr hr' (List.cons.inj hvalue).2
  exact ⟨rfl, hrest⟩

theorem renderItems_delimited {items items' : List Json} {r r' : List Char}
    (hitems : ∀ v ∈ items, Delimits render v)
    (h : renderItems items ++ ']' :: r = renderItems items' ++ ']' :: r') :
    items = items' ∧ r = r' := by
  rw [renderItems_eq_joined, renderItems_eq_joined] at h
  refine joined_delimited (by decide) (by decide) (fun v r r' hv => ?_) hitems h
  obtain ⟨c, rest, hrender, hopens⟩ := v.render_opens
  rw [hrender] at hv
  obtain rfl := (List.cons.inj hv).1
  rcases v with _ | ⟨_ | _⟩ | _ | _ | _ | _ <;> simp [Opens, Char.isDigit] at hopens

theorem renderMembers_delimited {members members' : List (String × Json)} {r r' : List Char}
    (hmembers : ∀ m ∈ members, Delimits render m.2)
    (h : renderMembers members ++ '\x7d' :: r = renderMembers members' ++ '\x7d' :: r') :
    members = members' ∧ r = r' := by
  rw [renderMembers_eq_joined, renderMembers_eq_joined] at h
  refine joined_delimited (by decide) (by decide) (fun m r r' hm => ?_)
    (fun m hm => renderMember_delimited (hmembers m hm)) h
  rw [renderMember] at hm
  exact absurd (List.cons.inj hm).1 (by decide)

/-- **A value shows its end** where no digit follows. -/
theorem render_delimited (v : Json) : Delimits render v := by
  -- The first character tells the sort of a value, so both values are of one sort.
  induction v using inwards with
    (intro v' r r' hr hr' h; obtain ⟨c, hc, hc'⟩ := opens_of_render_append h)
  | null =>
      match v', hc, hc' with
      | .null, _, _ => exact ⟨rfl, List.append_cancel_left h⟩
  | bool value =>
      match value, v', hc, hc' with
      | true, .bool true, _, _ => exact ⟨rfl, List.append_cancel_left h⟩
      | false, .bool false, _, _ => exact ⟨rfl, List.append_cancel_left h⟩
  | num n =>
      match v', hc, hc' with
      | .num n', _, _ =>
          obtain ⟨rfl, hrest⟩ := toDigits_delimited hr hr' (by simpa only [render] using h)
          exact ⟨rfl, hrest⟩
  | str s =>
      match v', hc, hc' with
      | .str s', _, _ =>
          obtain ⟨rfl, hrest⟩ := quoted_delimited (by simpa only [render] using h)
          exact ⟨rfl, hrest⟩
  | arr items ih =>
      match v', hc, hc' with
      | .arr items', _, _ =>
          simp only [render, List.cons_append, List.append_assoc, List.nil_append, List.cons.injEq,
            true_and] at h
          obtain ⟨rfl, hrest⟩ := renderItems_delimited ih h
          exact ⟨rfl, hrest⟩
  | obj members ih =>
      match v', hc, hc' with
      | .obj members', _, _ =>
          simp only [render, List.cons_append, List.append_assoc, List.nil_append, List.cons.injEq,
            true_and] at h
          obtain ⟨rfl, hrest⟩ := renderMembers_delimited ih h
          exact ⟨rfl, hrest⟩

/-- **Different values are written differently.** -/
theorem render_injective {v v' : Json} (h : v.render = v'.render) : v = v' := by
  have hnil : NoDigit [] := fun _ hc => nomatch hc
  exact (render_delimited v v' hnil hnil (congrArg (· ++ []) h)).1

/-! ### Lines -/

theorem newline_not_mem_quoted (s : String) : '\n' ∉ quoted s := by
  simp [quoted, newline_not_mem_escaped]

theorem newline_not_mem_joined {α : Type} {write : α → List Char} : ∀ {as : List α},
    (∀ a ∈ as, '\n' ∉ write a) → '\n' ∉ joined write as
  | [], _ => List.not_mem_nil
  | [a], h => h a List.mem_cons_self
  | a :: b :: as, h => by
      have hrest := newline_not_mem_joined fun c hc => h c (List.mem_cons_of_mem a hc)
      simpa [joined] using ⟨h a List.mem_cons_self, hrest⟩

/-- **A value is written on one line.** -/
theorem newline_not_mem_render (v : Json) : '\n' ∉ v.render := by
  induction v using inwards with
  | null => decide
  | bool value =>
      cases value with
      | false => decide
      | true => decide
  | num n =>
      intro hn
      rw [render] at hn
      exact absurd (isDigit_of_mem_render_num _ hn) (by decide)
  | str s =>
      rw [render]
      exact newline_not_mem_quoted s
  | arr items ih =>
      rw [render, renderItems_eq_joined]
      simpa using newline_not_mem_joined ih
  | obj members ih =>
      have hmember (m : String × Json) (hm : m ∈ members) : '\n' ∉ renderMember m := by
        rw [renderMember]
        simpa [newline_not_mem_quoted] using ih m hm
      rw [render, renderMembers_eq_joined]
      simpa using newline_not_mem_joined hmember

end SymbolGraph.Json
