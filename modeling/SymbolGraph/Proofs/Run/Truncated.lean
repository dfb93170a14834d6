import SymbolGraph.Proofs.Graph.Encoding
import SymbolGraph.Proofs.Run.Interrupted

/-!
# Proofs — Run — truncated output

A medium with room for a certain number of bytes takes the beginning of what a medium without a limit
takes: elements are written as long as they fit, and of the first that does not fit as much as there is
room for.  The run ends there.  Since an element's line holds no newline of its own, the first byte
that did not fit tells where the medium was full, and so which fault the run ends with.

* `Sink.overflow`: the fault of a medium that has no room for a byte.
* `Interruption.atLimit`: a medium that is to be full.
* `Run.output_truncated`: a run over a limited medium, and the run over an unlimited one.
* `Run.selfAliased_fails`: a run may fail though there is room for all that it writes.
-/

namespace SymbolGraph

open SymbolGraph.Action

namespace Sink

/-- The fault of a medium that has no room for a byte: an object is written before its newline. -/
def overflow (byte : UInt8) : SinkFault :=
  if byte = 0x0a then .io "disk full" else .json "disk full"

theorem emit_limited (limit : Nat) (written : Array UInt8) (e : Element) :
    emit e (.lines (some limit) none written) =
      if limit - written.size < e.body.length then
        .error (.json "disk full")
          (.lines (some limit) none (written ++ e.body.take (limit - written.size)))
      else if limit - written.size = e.body.length then
        .error (.io "disk full") (.lines (some limit) none (written ++ e.body))
      else .ok () (.lines (some limit) none ((written ++ e.body).push 0x0a)) := by
  have hget (sink : Sink) : (get : EStateM SinkFault Sink Sink) sink = .ok sink sink := rfl
  unfold Element.body emit
  simp only [bind, EStateM.bind, hget]
  split
  · rfl
  · split
    · rfl
    · rfl

/-- **A limited medium** takes a line with its newline, or it takes what there is room for and fails
with the fault that belongs to the next byte. -/
theorem emit_limited_cases {limit : Nat} {written : Array UInt8} (hle : written.size ≤ limit)
    (e : Element) :
    (((written ++ e.body).push 0x0a).size ≤ limit ∧ emit e (.lines (some limit) none written) =
      .ok () (.lines (some limit) none ((written ++ e.body).push 0x0a))) ∨
    ∃ part byte, emit e (.lines (some limit) none written) =
        .error (overflow byte) (.lines (some limit) none part) ∧ part.size = limit ∧
      part.toList ++ [byte] <+: ((written ++ e.body).push 0x0a).toList := by
  have hline : ((written ++ e.body).push 0x0a).toList = written.toList ++ (e.body ++ [0x0a]) := by
    simp
  have hsize (bytes : List UInt8) : (written ++ bytes).size = written.size + bytes.length := by
    rw [← Array.length_toList, Array.toList_appendList, List.length_append, Array.length_toList]
  rw [emit_limited, hline]
  split
  · rename_i hshort
    -- The line is cut before a byte that is no newline.
    have hbyte : overflow e.body[limit - written.size] = .json "disk full" :=
      if_neg fun heq : e.body[limit - written.size] = 0x0a =>
        e.newline_not_mem_body (heq ▸ List.getElem_mem hshort)
    refine .inr ⟨_, e.body[limit - written.size], by rw [hbyte], ?_, ?_⟩
    · rw [hsize, List.length_take]
      omega
    · rw [Array.toList_appendList, List.append_assoc, List.take_append_getElem hshort]
      exact (List.prefix_append_right_inj _).mpr ((List.take_prefix _ _).trans
        (List.prefix_append _ _))
  · split
    · rename_i hfull
      refine .inr ⟨_, 0x0a, rfl, ?_, ?_⟩
      · rw [hsize]
        omega
      · exact ⟨[], by simp⟩
    · refine .inl ⟨?_, rfl⟩
      rw [Array.size_push, hsize]
      omega

/-- The medium as it would be without its limit. -/
def unlimited : Sink → Sink
  | lines _ flushFault written => lines none flushFault written
  | sink                       => sink

end Sink

namespace Interruption

open Sink

/-- The medium has room for `limit` bytes in all and flushes well. -/
def atLimit (limit : Nat) : Interruption where
  Awaits s := ∃ written, s = .lines (some limit) none written ∧ written.size ≤ limit
  mended := unlimited
  Cuts fault s t := s.bytes.length = limit ∧
    ∃ byte, s.bytes ++ [byte] <+: t.bytes ∧ fault = overflow byte
  emit {s} e hs := by
    obtain ⟨written, rfl, hle⟩ := hs
    have hwhole : Sink.emit e (unlimited (.lines (some limit) none written)) = _ :=
      emit_unlimited none written e
    rw [hwhole]
    rcases emit_limited_cases hle e with ⟨hfits, htaken⟩ | ⟨part, byte, hrefused, hfull, hbefore⟩
    · exact .inl ⟨_, htaken, rfl, _, rfl, hfits⟩
    · exact .inr ⟨_, _, hrefused, Array.length_toList.trans hfull, byte, hbefore, rfl⟩
  flush {s} hs := by
    obtain ⟨written, rfl, -⟩ := hs
    exact ⟨rfl, rfl⟩
  later h hmore := by
    obtain ⟨hfull, byte, hbefore, hfault⟩ := h
    exact ⟨hfull, byte, hbefore.trans hmore.bytes, hfault⟩
  apart hs h := by
    obtain ⟨written, rfl, -⟩ := hs
    obtain ⟨-, byte, hbefore, -⟩ := h
    have hlength : (written.toList ++ [byte]).length ≤ written.toList.length := hbefore.length_le
    rw [List.length_append, List.length_singleton] at hlength
    omega

end Interruption

namespace Run

/-- The bytes that a run writes to a medium with or without a limit. -/
def output (w : Setting) (limit : Option Nat) : List UInt8 :=
  (index w (.lines limit none #[])).2.sink.bytes

/-- How a run over a medium with or without a limit ends. -/
def outcome (w : Setting) (limit : Option Nat) : Except Fault Summary :=
  (index w (.lines limit none #[])).1

/-- A run over a medium that has room for all, or that had no room for a byte. -/
theorem output_cases (w : Setting) (limit : Nat) :
    (outcome w (some limit) = outcome w none ∧ (output w none).length ≤ limit ∧
      output w (some limit) = output w none) ∨
    ∃ byte, outcome w (some limit) = .error (.sink (Sink.overflow byte)) ∧
      (output w (some limit)).length = limit ∧ output w (some limit) ++ [byte] <+: output w none := by
  have hroom : (Interruption.atLimit limit).Awaits (.lines (some limit) none #[]) :=
    ⟨#[], rfl, Nat.zero_le _⟩
  have hmended : (Interruption.atLimit limit).mended (.lines (some limit) none #[])
      = .lines none none #[] := rfl
  have hrun := index_interrupted (w := w) (.atLimit limit) hroom
  rw [hmended] at hrun
  unfold outcome output
  rcases hrun with ⟨⟨written, hsink, hle⟩, hsame⟩ | ⟨_, hfails, hfull, byte, hbefore, rfl⟩
  · have hwhole : (index w (.lines none none #[])).2.sink.bytes = written.toList := by
      rw [hsame]
      show ((index w (.lines (some limit) none #[])).2.sink.unlimited).bytes = _
      rw [hsink]
      rfl
    refine .inl ⟨by rw [hsame], ?_, ?_⟩
    · rw [hwhole, Array.length_toList]
      exact hle
    · rw [hwhole, hsink]
      rfl
  · exact .inr ⟨byte, hfails, hfull, hbefore⟩

/-- **Truncated output is a beginning.**  A run over a medium with room for `limit` bytes leaves the
first `limit` bytes of what the run over an unlimited medium writes.  If that is everything then both
end alike; otherwise the run ends with the fault that belongs to the first byte without room. -/
theorem output_truncated (w : Setting) (limit : Nat) :
    output w (some limit) = (output w none).take limit ∧
      outcome w (some limit) = match (output w none)[limit]? with
        | none      => outcome w none
        | some byte => .error (.sink (Sink.overflow byte)) := by
  rcases output_cases w limit with ⟨hsame, hlength, hbytes⟩ | ⟨byte, hfails, hfull, hbefore⟩
  · refine ⟨?_, ?_⟩
    · rw [List.take_of_length_le hlength, hbytes]
    · rw [List.getElem?_eq_none hlength]
      exact hsame
  · have hnext : (output w none)[limit]? = some byte := by
      obtain ⟨rest, hrest⟩ := hbefore
      rw [← hrest, List.append_assoc, List.getElem?_append_right (Nat.le_of_eq hfull), hfull,
        Nat.sub_self]
      rfl
    refine ⟨?_, ?_⟩
    · rw [List.prefix_iff_eq_take.mp ((List.prefix_append _ _).trans hbefore), hfull]
    · rw [hnext]
      exact hfails

/-- An alias of itself, and a mention of it. -/
def selfAliased : Setting := plain
  [.file ⟨"/p/a.ts"⟩ "b", .symbol "b" .ofAlias, .aliased ⟨0⟩ ⟨0⟩, .identifier ⟨0⟩ "b" 0 ⟨0⟩]

/-- A run may fail though there is room for all that it writes: a symbol that stands for itself has no
record, whatever the medium. -/
theorem selfAliased_fails : ¬ ∀ (w : Setting) (limit : Nat),
    (outcome w (some limit)).isOk = true ↔ (output w none).length ≤ limit := by
  intro h
  have hfails : (outcome selfAliased none).isOk = false := by
    decide +kernel
  have hok := (h selfAliased _).mpr (Nat.le_refl _)
  rcases output_cases selfAliased (output selfAliased none).length with
    ⟨hsame, -⟩ | ⟨byte, hrefused, -⟩
  · rw [hsame, hfails] at hok
    cases hok
  · rw [hrefused] at hok
    cases hok

end Run

end SymbolGraph
