import SymbolGraph.Graph.Sink
import SymbolGraph.Proofs.Action
import SymbolGraph.Proofs.Json.Delimiting
import Mathlib.Data.List.Basic

/-!
# Proofs — Graph — the written graph can be read back

An element is one JSON object, and different elements are different objects: the type and the label
say what shape the rest has, and within one shape every part is written, or its absence shows.  Since
a value shows its end and holds no newline, the bytes that a sink has written tell which elements it
was handed, and each line is one of them.

* `Element.json_injective`: different elements are different objects.
* `Element.newline_not_mem_line`, `utf8_injective`: an element is one line of bytes.
* `Sink.written`: the bytes of a list of elements.
* `Sink.written_unambiguous`: the bytes tell the elements, line by line.
-/

namespace SymbolGraph

/-! ### Words -/

/-- No two labels of vertices have one text. -/
theorem VertexLabel.text_injective {a b : VertexLabel} : a.text = b.text → a = b := by
  cases a <;> cases b <;> decide

/-- No two labels of edges have one text. -/
theorem EdgeLabel.text_injective {a b : EdgeLabel} : a.text = b.text → a = b := by
  rcases a with _ | _ | ⟨⟨⟩⟩ <;> rcases b with _ | _ | ⟨⟨⟩⟩ <;> decide

/-- No two kinds of symbols have one code. -/
theorem SymbolKind.code_injective {a b : SymbolKind} : a.code = b.code → a = b := by
  cases a <;> cases b <;> decide

theorem Uniqueness.text_injective {a b : Uniqueness} : a.text = b.text → a = b := by
  cases a <;> cases b <;> decide

theorem MonikerKind.text_injective {a b : MonikerKind} : a.text = b.text → a = b := by
  cases a <;> cases b <;> decide

theorem ItemProperty.text_injective {a b : ItemProperty} : a.text = b.text → a = b := by
  cases a <;> cases b <;> decide

/-! ### Parts of an element -/

/-- An id can be read off its number. -/
theorem ElementId.json_injective : Function.Injective ElementId.json := by
  rintro ⟨n⟩ ⟨n'⟩ h
  exact congrArg ElementId.mk (Json.num.inj h)

/-- A position can be read off its line and its character. -/
theorem Position.json_injective : Function.Injective Position.json := by
  rintro ⟨line, character⟩ ⟨line', character'⟩ h
  simp only [Position.json] at h
  simpa using h

/-- A span can be read off its two ends. -/
theorem LineRange.members_injective : Function.Injective LineRange.members := by
  rintro ⟨start, stop⟩ ⟨start', stop'⟩ h
  simp only [LineRange.members, List.cons.injEq, Prod.mk.injEq, true_and, and_true] at h
  rw [Position.json_injective h.1, Position.json_injective h.2]

theorem LineRange.json_injective : Function.Injective LineRange.json :=
  fun _ _ h => LineRange.members_injective (Json.obj.inj h)

/-- By cases of the tags, which are told apart by their names. -/
theorem RangeTag.json_injective : Function.Injective RangeTag.json := by
  rintro (⟨text, kind, fullRange⟩ | text) (⟨text', kind', fullRange'⟩ | text') h
  · simp only [RangeTag.json, Json.obj.injEq, List.cons.injEq, Prod.mk.injEq, Json.str.injEq,
      Json.num.injEq, true_and, and_true] at h
    obtain ⟨rfl, hkind, hrange⟩ := h
    rw [SymbolKind.code_injective hkind, LineRange.json_injective hrange]
  · simp [RangeTag.json] at h
  · simp [RangeTag.json] at h
  · simp only [RangeTag.json] at h
    simpa using h

/-- A marked text can be read off its language and its value. -/
theorem MarkedText.json_injective : Function.Injective MarkedText.json := by
  rintro (⟨language, value⟩ | text) (⟨language', value'⟩ | text') h
  · simpa [MarkedText.json] using h
  · cases h
  · cases h
  · simpa [MarkedText.json] using h

/-- A moniker can be read off its members. -/
theorem Moniker.members_injective : Function.Injective Moniker.members := by
  rintro ⟨scheme, identifier, unique, kind⟩ ⟨scheme', identifier', unique', kind'⟩ h
  simp only [Moniker.members, List.cons.injEq, Prod.mk.injEq, Json.str.injEq, true_and,
    and_true] at h
  obtain ⟨rfl, rfl, hunique, hkind⟩ := h
  rw [Uniqueness.text_injective hunique, MonikerKind.text_injective hkind]

mutual

/-- By induction on the tree: its range and its children can be read off. -/
theorem SymbolTree.json_injective : ∀ {t t' : SymbolTree}, t.json = t'.json → t = t'
  | .node id [], .node id' [], h => by
      simp only [SymbolTree.json, Json.obj.injEq, List.cons.injEq, Prod.mk.injEq, true_and,
        and_true] at h
      rw [ElementId.json_injective h]
  | .node id [], .node id' (t' :: ts'), h => by simp [SymbolTree.json] at h
  | .node id (t :: ts), .node id' [], h => by simp [SymbolTree.json] at h
  | .node id (t :: ts), .node id' (t' :: ts'), h => by
      simp only [SymbolTree.json, Json.obj.injEq, List.cons.injEq, Prod.mk.injEq, true_and,
        and_true, Json.arr.injEq] at h
      obtain ⟨hid, ht, hts⟩ := h
      rw [ElementId.json_injective hid, SymbolTree.json_injective ht,
        SymbolTree.jsonForest_injective hts]

/-- By induction on the forest: each of its trees can be read off. -/
theorem SymbolTree.jsonForest_injective : ∀ {ts ts' : List SymbolTree},
    SymbolTree.jsonForest ts = SymbolTree.jsonForest ts' → ts = ts'
  | [], [], _ => rfl
  | [], t' :: ts', h => by simp [SymbolTree.jsonForest] at h
  | t :: ts, [], h => by simp [SymbolTree.jsonForest] at h
  | t :: ts, t' :: ts', h => by
      simp only [SymbolTree.jsonForest, List.cons.injEq] at h
      rw [SymbolTree.json_injective h.1, SymbolTree.jsonForest_injective h.2]

end

/-! ### Elements -/

/-- A member that may be left out tells whether it is there and what it holds. -/
theorem optionalMember_injective {α : Type} {name : String} {write : α → Json}
    (h : Function.Injective write) :
    Function.Injective fun o : Option α => (o.map fun a => (name, write a)).toList := by
  rintro (_ | a) (_ | a') heq
  · rfl
  · cases heq
  · cases heq
  · simp only [Option.map_some, Option.toList_some, List.cons.injEq, Prod.mk.injEq, true_and,
      and_true] at heq
    rw [h heq]

/-- Where there is no tag the member is missing, so the tag can be read off as well. -/
theorem Vertex.rangeMembers_injective {span span' : LineRange} {tag tag' : Option RangeTag}
    (h : Vertex.rangeMembers span tag = Vertex.rangeMembers span' tag') :
    span = span' ∧ tag = tag' := by
  obtain ⟨hspan, htag⟩ := List.append_inj h rfl
  exact ⟨LineRange.members_injective hspan, optionalMember_injective RangeTag.json_injective htag⟩

/-- Within one label, the members of a vertex tell what it holds. -/
theorem Vertex.members_injective {v v' : Vertex} (hlabel : v.label = v'.label)
    (h : v.members = v'.members) : v = v' := by
  match v, v', hlabel with
  | .metaData ⟨_, _, _, _, _⟩, .metaData ⟨_, _, _, _, _⟩, _ =>
      simp only [Vertex.members] at h
      simpa using h
  | .project _, .project _, _ => simpa [Vertex.members] using h
  | .document _ _, .document _ _, _ => simpa [Vertex.members] using h
  | .range _ _, .range _ _, _ =>
      obtain ⟨rfl, rfl⟩ := Vertex.rangeMembers_injective h
      rfl
  | .resultSet, .resultSet, _ => rfl
  | .definitionResult, .definitionResult, _ => rfl
  | .referenceResult, .referenceResult, _ => rfl
  | .hoverResult contents, .hoverResult contents', _ =>
      simp only [Vertex.members, MarkedText.hover, List.cons.injEq, Prod.mk.injEq, Json.obj.injEq,
        Json.arr.injEq, true_and, and_true] at h
      rw [List.map_injective_iff.mpr MarkedText.json_injective h]
  | .moniker m, .moniker m', _ => rw [Moniker.members_injective h]
  | .documentSymbolResult forest, .documentSymbolResult forest', _ =>
      simp only [Vertex.members, List.cons.injEq, Prod.mk.injEq, Json.arr.injEq, true_and,
        and_true] at h
      rw [SymbolTree.jsonForest_injective h]

/-- Within one label, the members of an edge tell what it holds. -/
theorem Edge.members_injective {e e' : Edge} (hlabel : e.label = e'.label)
    (h : e.members = e'.members) : e = e' := by
  have htargets := List.map_injective_iff.mpr ElementId.json_injective
  match e, e', hlabel with
  | .contains _ _, .contains _ _, _ =>
      simp only [Edge.members, List.cons.injEq, Prod.mk.injEq, Json.arr.injEq, true_and,
        and_true] at h
      rw [ElementId.json_injective h.1, htargets h.2]
  | .item _ _ _ _, .item _ _ _ _, _ =>
      simp only [Edge.members, List.cons_append, List.nil_append, List.cons.injEq, Prod.mk.injEq,
        Json.arr.injEq, true_and] at h
      obtain ⟨hsource, hlisted, hdocument, hproperty⟩ := h
      have htext : Function.Injective fun p : ItemProperty => Json.str p.text :=
        fun _ _ htext => ItemProperty.text_injective (Json.str.inj htext)
      rw [ElementId.json_injective hsource, htargets hlisted, ElementId.json_injective hdocument,
        optionalMember_injective htext hproperty]
  | .link _ _ _, .link _ _ _, hkind =>
      simp only [Edge.members, List.cons.injEq, Prod.mk.injEq, true_and, and_true] at h
      rw [EdgeLabel.link.inj hkind, ElementId.json_injective h.1, ElementId.json_injective h.2]

/-- **Different elements are different objects.** -/
theorem Element.json_injective : Function.Injective Element.json := by
  rintro (⟨id, v⟩ | ⟨id, e⟩) (⟨id', v'⟩ | ⟨id', e'⟩) h
  · simp only [Element.json, Vertex.labelled, Json.obj.injEq, List.cons.injEq, Prod.mk.injEq,
      Json.str.injEq, true_and] at h
    obtain ⟨hid, hlabel, hmembers⟩ := h
    rw [ElementId.json_injective hid,
      Vertex.members_injective (VertexLabel.text_injective hlabel) hmembers]
  · simp [Element.json] at h
  · simp [Element.json] at h
  · simp only [Element.json, Json.obj.injEq, List.cons.injEq, Prod.mk.injEq, Json.str.injEq,
      true_and] at h
    obtain ⟨hid, hlabel, hmembers⟩ := h
    rw [ElementId.json_injective hid,
      Edge.members_injective (EdgeLabel.text_injective hlabel) hmembers]

/-- Two elements with one line are the same element. -/
theorem Element.line_injective : Function.Injective Element.line :=
  fun _ _ h => Element.json_injective (Json.render_injective h)

/-- **An element is one line.** -/
theorem Element.newline_not_mem_line (element : Element) : '\n' ∉ element.line :=
  element.json.newline_not_mem_render

/-! ### Bytes -/

/-- A text can be read off its bytes. -/
theorem Text.utf8_injective : Function.Injective Text.utf8 := by
  intro text text' h
  have hbytes : (String.ofList text).toByteArray = (String.ofList text').toByteArray := by
    rw [String.toByteArray_ofList, String.toByteArray_ofList]
    exact congrArg List.toByteArray h
  exact String.ofList_injective (String.toByteArray_inj.mp hbytes)

/-- No byte of a wide character is a newline. -/
theorem Text.newline_ne_ofNat {n : Nat} (h : 0x80 ≤ n) (hn : n < 0x100) : 0x0a ≠ UInt8.ofNat n := by
  intro heq
  have hval := congrArg UInt8.toNat heq
  rw [UInt8.toNat_ofNat_of_lt' hn] at hval
  have hten : (0x0a : UInt8).toNat = 10 := rfl
  omega

/-- Only a newline is written with the byte of a newline. -/
theorem Text.newline_not_mem_utf8EncodeChar {c : Char} (h : c ≠ '\n') :
    0x0a ∉ String.utf8EncodeChar c := by
  fun_cases String.utf8EncodeChar c with
  | case1 v hv =>
      intro hmem
      have hval := congrArg UInt8.toNat (List.mem_singleton.mp hmem)
      rw [UInt8.toNat_ofNat_of_lt' (show v < 0x100 by omega)] at hval
      exact h (Char.toNat_inj.mp hval.symm)
  | case2 v _ hv =>
      simp only [List.mem_cons, List.not_mem_nil, or_false, not_or]
      refine ⟨Text.newline_ne_ofNat ?_ ?_, Text.newline_ne_ofNat ?_ ?_⟩ <;> omega
  | case3 v _ _ hv =>
      simp only [List.mem_cons, List.not_mem_nil, or_false, not_or]
      refine ⟨Text.newline_ne_ofNat ?_ ?_, Text.newline_ne_ofNat ?_ ?_, Text.newline_ne_ofNat ?_ ?_⟩
        <;> omega
  | case4 v _ _ hv =>
      simp only [List.mem_cons, List.not_mem_nil, or_false, not_or]
      refine ⟨Text.newline_ne_ofNat ?_ ?_, Text.newline_ne_ofNat ?_ ?_, Text.newline_ne_ofNat ?_ ?_,
        Text.newline_ne_ofNat ?_ ?_⟩ <;> omega

/-- A text without a newline has no byte of one. -/
theorem Text.newline_not_mem_utf8 {text : List Char} (h : '\n' ∉ text) : 0x0a ∉ Text.utf8 text := by
  intro hmem
  obtain ⟨c, hc, hbyte⟩ := List.mem_flatMap.mp hmem
  exact Text.newline_not_mem_utf8EncodeChar (fun heq => h (heq ▸ hc)) hbyte

/-- The bytes of an element's line, without its newline. -/
def Element.body (element : Element) : List UInt8 := Text.utf8 element.line

theorem Element.body_injective : Function.Injective Element.body :=
  Text.utf8_injective.comp Element.line_injective

/-- The line of an element has no newline inside, since its json escapes them. -/
theorem Element.newline_not_mem_body (element : Element) : 0x0a ∉ element.body :=
  Text.newline_not_mem_utf8 element.newline_not_mem_line

/-! ### What a sink writes -/

namespace Sink

open SymbolGraph.Action

/-- The bytes of elements, line by line. -/
def transcript (elements : List Element) : List UInt8 :=
  elements.flatMap fun element => element.body ++ [0x0a]

/-- A transcript begins with the line of its first element. -/
theorem transcript_cons (element : Element) (elements : List Element) :
    transcript (element :: elements) = element.body ++ 0x0a :: transcript elements := by
  simp [transcript]

/-- Taken apart at its newlines, a transcript gives the elements' lines. -/
theorem splitOn_transcript (elements : List Element) :
    (transcript elements).splitOn 0x0a = elements.map Element.body ++ [[]] := by
  induction elements with
  | nil => rfl
  | cons element elements ih =>
      rw [transcript_cons, List.splitOn_append_cons_self_of_not_mem element.newline_not_mem_body, ih]
      rfl

/-- Every element has one newline. -/
theorem count_transcript (elements : List Element) :
    (transcript elements).count 0x0a = elements.length := by
  induction elements with
  | nil => rfl
  | cons element elements ih =>
      have hbody := List.count_eq_zero_of_not_mem element.newline_not_mem_body
      rw [transcript_cons, List.count_append, hbody, List.count_cons_self, ih, List.length_cons,
        Nat.zero_add]

/-- By induction on the elements: the first newline ends the first of them. -/
theorem transcript_injective : Function.Injective transcript := by
  intro elements elements' h
  have hlines : elements.map Element.body ++ [[]] = elements'.map Element.body ++ [[]] := by
    rw [← splitOn_transcript, ← splitOn_transcript, h]
  exact List.map_injective_iff.mpr Element.body_injective (List.append_cancel_right hlines)

/-- A sink without a limit takes an element and writes its line. -/
theorem emit_unlimited (fault : Option String) (written : Array UInt8) (element : Element) :
    emit element (.lines none fault written) =
      .ok () (.lines none fault ((written ++ element.body).push 0x0a)) := by
  have hfits : ¬(Text.utf8 element.line).length + 1 < (Text.utf8 element.line).length := by omega
  have hroom : ¬(Text.utf8 element.line).length + 1 = (Text.utf8 element.line).length := by omega
  have hget (sink : Sink) : (get : EStateM SinkFault Sink Sink) sink = .ok sink sink := rfl
  unfold emit
  simp only [bind, EStateM.bind, hget, hfits, hroom, if_false]
  rfl

/-- A sink without a limit takes all elements and writes their lines. -/
theorem forM_emit_unlimited (fault : Option String) (elements : List Element) : ∀ written,
    Ensures (elements.forM emit) (.lines none fault written)
      (fun _ s => s.bytes = written.toList ++ transcript elements) fun _ _ => False := by
  induction elements with
  | nil => exact fun written => (List.append_nil _).symm
  | cons element elements ih =>
      intro written
      refine ensures_bind.mpr ?_
      unfold Ensures
      rw [emit_unlimited]
      refine (ih _).mono (fun _ s hs => ?_) fun _ _ hfalse => hfalse
      rw [hs, transcript_cons]
      simp

/-- The bytes that a sink without a limit has written once it was handed some elements. -/
def written (elements : List Element) : List UInt8 :=
  (final (elements.forM emit (.lines none none #[]))).bytes

/-- What a sink has written is the transcript of what it took. -/
theorem written_eq_transcript (elements : List Element) : written elements = transcript elements :=
  ((forM_emit_unlimited none elements #[]).mono (fun _ _ hs => hs) fun _ _ hfalse => hfalse.elim).final

/-- **The written graph is unambiguous.**  The bytes that a sink has written tell which elements it
was handed: there is one newline for each element, and what stands between the newlines are the
elements' lines in order. -/
theorem written_unambiguous (elements elements' : List Element) :
    (written elements = written elements' ↔ elements = elements') ∧
      (written elements).count 0x0a = elements.length ∧
      (written elements).splitOn 0x0a = elements.map Element.body ++ [[]] := by
  rw [written_eq_transcript, written_eq_transcript]
  exact ⟨transcript_injective.eq_iff, count_transcript elements, splitOn_transcript elements⟩

end Sink

end SymbolGraph
