import SymbolGraph.Proofs.Session.Keeping
import SymbolGraph.Proofs.Store.Working
import SymbolGraph.Proofs.Symbol.Sheltering
import SymbolGraph.Session.Resolve

/-!
# Proofs — Session — what resolving does, step by step

While a symbol is resolved a session only *gathers*: it collects in its store, reserves keys and
gives them up, stores new records, and learns about symbols and lines.  Nothing is cleared on the
way, so what a fault blames as cleared was cleared before, either in a file that is being walked or
in one that declares a symbol nobody had met.

* `Session.Gathers`: one step.  A record is local to a node only when its symbol is declared below
  the node and no module shelters it.
* `Session.Blames`: what a fault may be blamed on.
* `Session.Works`: an action that gathers, or fails with something to blame.
-/

namespace SymbolGraph

/-- A node around the only declaration of a symbol with this key. -/
def Program.Encloses (p : Program) (key : SymbolKey) (node : NodeId) : Prop :=
  ∃ symbol declaration, p.key symbol = key ∧ p.declarations symbol = [declaration] ∧
    node ∈ p.ancestors declaration

/-- The lines of a file. -/
def Program.lines (p : Program) (file : FileId) : LineIndex :=
  LineIndex.ofText ((p.fileText file).getD "")

namespace Store

variable {w : Setting} {s t : Store} {key : SymbolKey}

/-- The cache says something else of a symbol without a record. -/
theorem Orderly.recache (hs : s.Orderly w) {cache : Table SymbolKey CacheSlot}
    (hnew : ¬ s.Knows key) (hother : ∀ key', key' ≠ key → cache.get? key' = s.cache.get? key')
    (hlive : ∀ id, cache.get? key ≠ some (.live id)) : Orderly w { s with cache } where
  counted := hs.counted.congr rfl rfl rfl
  keyed := hs.keyed.recache hnew hother hlive
  backed := hs.backed.lasts (lasts_cache hother fun hk => absurd hk hnew)
    fun _ r hr _ hinfo => .inl ⟨r, hr, hinfo⟩

/-- The cache may change, if no key is cleared. -/
theorem spares_cache {cache : Table SymbolKey CacheSlot}
    (h : ∀ key, cache.get? key = some .cleared → s.cache.get? key = some .cleared) :
    s.Spares { s with cache } :=
  ⟨fun _ hc => hc, fun _ hc => hc, h⟩

/-- The record of a number has a key. -/
def Names (s : Store) (id : RecordId) (key : SymbolKey) : Prop :=
  ∃ r, s.records[id.index]? = some r ∧ r.key = key

/-- A record that is named stays named. -/
theorem Lasts.names (h : s.Lasts t) {id : RecordId} (hid : s.Names id key) : t.Names id key := by
  obtain ⟨r, hr, rfl⟩ := hid
  obtain ⟨r', hr', hendures⟩ := h.records _ r hr
  exact ⟨r', hr', hendures.key⟩

/-- A record is known by its key. -/
theorem Names.knows {id : RecordId} (h : s.Names id key) (hs : s.Keyed) : s.Knows key := by
  obtain ⟨r, hr, rfl⟩ := h
  rcases hs.known _ r hr with hfound | hfound
  · exact ⟨_, hfound, nofun⟩
  · exact ⟨_, hfound, nofun⟩

end Store

namespace Session

open SymbolGraph.Action SymbolGraph.Discipline

variable {α β : Type} {w : Setting} {here : FileId → Prop} {s t u : Session} {id : RecordId}
  {file : FileId} {key : SymbolKey}

/-- The store is in order, and lines were counted right. -/
structure Ready (w : Setting) (s : Session) : Prop where
  store : s.store.Orderly w
  lines : ∀ file index, s.lineIndexes.get? file = some index → index = w.program.lines file

/-- One step of gathering. -/
inductive Gathers (w : Setting) (s : Session) : Session → Prop
  /-- The store collects. -/
  | collects {store : Store} : s.store.Collects w store → Gathers w s { s with store }
  /-- The key of a record that is to be made is reserved. -/
  | reserves {key : SymbolKey} : s.store.cache.get? key = none →
      Gathers w s { s with store := { s.store with cache := s.store.cache.insert key .resolving } }
  /-- A reservation is given up. -/
  | abandons {key : SymbolKey} : s.store.cache.get? key = some .resolving →
      Gathers w s { s with store := { s.store with cache := s.store.cache.erase key } }
  /-- A record is stored, local to a node only where no module shelters it. -/
  | inserts {key : SymbolKey} {kind : RecordKind} {scope : Option NodeId} :
      s.store.cache.get? key = some .resolving →
      (∀ node, scope = some node → w.program.Encloses key node) →
      (∀ module, s.symbols.Shelters w.program module key → scope = none) →
      Gathers w s { s with store := s.store.pushed { key, kind, scope } }
  /-- Something is learnt about symbols. -/
  | learns {symbols : Symbols} : s.symbols.Learns w.program symbols → Gathers w s { s with symbols }
  /-- The lines of a file are counted. -/
  | counts {file : FileId} : Gathers w s
      { s with lineIndexes := s.lineIndexes.insert file (w.program.lines file) }
  /-- A definition range is kept for the document symbols. -/
  | names {definitions : Table NodeId VertexRef} : Gathers w s { s with definitions }

/-! ### What gathering keeps -/

/-- Gathering loses nothing that was there. -/
theorem Gathers.lasts (h : Gathers w s t) : s.store.Lasts t.store := by
  cases h with
  | collects hstep => exact hstep.lasts
  | reserves hnone =>
      exact Store.lasts_cache (Store.get?_insert_of_ne _)
        fun hk => absurd hk (Store.not_knows_of_none hnone)
  | abandons hresolving =>
      exact Store.lasts_cache Store.get?_erase_of_ne
        fun hk => absurd hk (Store.not_knows_of_resolving hresolving)
  | inserts hresolving => exact Store.lasts_push hresolving
  | _ => exact .refl _

/-- Gathering clears nothing. -/
theorem Gathers.spares (h : Gathers w s t) : s.store.Spares t.store := by
  cases h with
  | collects hstep => exact hstep.spares
  | reserves =>
      refine Store.spares_cache fun key hcleared => ?_
      rw [Table.get?_insert] at hcleared
      split at hcleared
      · cases hcleared
      · exact hcleared
  | abandons =>
      refine Store.spares_cache fun key hcleared => ?_
      rw [Table.get?_erase] at hcleared
      split at hcleared
      · cases hcleared
      · exact hcleared
  | inserts => exact Store.spares_push rfl
  | _ => exact .refl _

/-- A session that is ready gathers and is ready. -/
theorem Gathers.ready (h : Gathers w s t) (hs : s.Ready w) : t.Ready w := by
  cases h with
  | collects hstep => exact ⟨hstep.orderly hs.store, hs.lines⟩
  | reserves hnone =>
      refine ⟨hs.store.recache (Store.not_knows_of_none hnone) (Store.get?_insert_of_ne _)
        fun id => ?_, hs.lines⟩
      rw [Table.get?_insert, if_pos rfl]
      nofun
  | abandons hresolving =>
      refine ⟨hs.store.recache (Store.not_knows_of_resolving hresolving) Store.get?_erase_of_ne
        fun id => ?_, hs.lines⟩
      rw [Table.get?_erase, if_pos rfl]
      nofun
  | inserts hresolving => exact ⟨hs.store.push hresolving rfl, hs.lines⟩
  | learns => exact ⟨hs.store, hs.lines⟩
  | counts =>
      refine ⟨hs.store, fun file index hindex => ?_⟩
      rw [Table.get?_insert] at hindex
      split at hindex
      · rename_i hfile
        rw [hfile]
        exact (Option.some.inj hindex).symm
      · exact hs.lines file index hindex
  | names => exact ⟨hs.store, hs.lines⟩

/-- Any number of steps of gathering. -/
abbrev Advances (w : Setting) : Session → Session → Prop := Relation.ReflTransGen (Gathers w)

namespace Advances

/-- Advancing loses nothing that was there. -/
theorem lasts (h : Advances w s t) : s.store.Lasts t.store := by
  induction h with
  | refl => exact .refl _
  | tail _ hstep ih => exact ih.trans hstep.lasts

/-- Advancing clears nothing. -/
theorem spares (h : Advances w s t) : s.store.Spares t.store := by
  induction h with
  | refl => exact .refl _
  | tail _ hstep ih => exact ih.trans hstep.spares

/-- A session that is ready advances and is ready. -/
theorem ready (h : Advances w s t) (hs : s.Ready w) : t.Ready w := by
  induction h with
  | refl => exact hs
  | tail _ hstep ih => exact hstep.ready ih

/-- Advancing learns of symbols what follows from the program. -/
theorem learns (h : Advances w s t) : s.symbols.Learns w.program t.symbols := by
  induction h with
  | refl => exact .refl _
  | tail _ hstep ih =>
      cases hstep with
      | learns hlearns => exact ih.trans hlearns
      | _ => exact ih

end Advances

/-- What the store gains is an advance. -/
theorem advances_store {store : Store} (h : s.store.Gains w store) :
    Advances w s { s with store } := by
  induction h with
  | refl => exact .refl
  | tail _ hstep ih => exact ih.tail (.collects hstep)

/-! ### What a fault may be blamed on -/

/-- A file that declares a symbol nobody has met. -/
def Undiscovered (p : Program) (s : Session) (file : FileId) : Prop :=
  ∃ symbol, ∃ declaration ∈ p.declarations symbol, p.fileOf declaration = file ∧
    ¬ s.store.Knows (p.key symbol)

/-- What a fault may be blamed on: something cleared in a file that is being walked or that declares
a symbol nobody has met, or a record that was cleared. -/
def Blames (w : Setting) (here : FileId → Prop) (s : Session) : Fault → Prop
  | .documentCleared _    => ∃ file, (here file ∨ s.Undiscovered w.program file) ∧
      s.store.documents.get? file = some .cleared
  | .partitionCleared _ _ => ∃ file, (here file ∨ s.Undiscovered w.program file) ∧
      s.store.HasClearedPartition file
  | .recordCleared key    => s.store.cache.get? key = some .cleared
  | _ => True

/-- What the store excuses for some files the session blames on them, if they are here or were not
discovered. -/
theorem blames_of_excuses {fault : Fault} {files : FileId → Prop}
    (h : s.store.Excuses files fault)
    (hfiles : ∀ file, files file → here file ∨ s.Undiscovered w.program file) :
    s.Blames w here fault := by
  cases fault with
  | documentCleared =>
      obtain ⟨file, hfile, hcleared⟩ := h
      exact ⟨file, hfiles file hfile, hcleared⟩
  | partitionCleared =>
      obtain ⟨file, hfile, hcleared⟩ := h
      exact ⟨file, hfiles file hfile, hcleared⟩
  | recordCleared => exact h.elim
  | _ => trivial

/-- What may be blamed after gathering could be blamed before. -/
theorem Blames.spared {files : FileId → Prop} {fault : Fault} (h : t.Blames w files fault)
    (hlasts : s.store.Lasts t.store) (hspares : s.store.Spares t.store)
    (hfiles : ∀ file, files file → here file ∨ s.Undiscovered w.program file) :
    s.Blames w here fault := by
  have hback (file : FileId) (hfile : files file ∨ t.Undiscovered w.program file) :
      here file ∨ s.Undiscovered w.program file := by
    rcases hfile with hfile | ⟨symbol, declaration, hmem, hdeclared, hunknown⟩
    · exact hfiles file hfile
    · exact .inr ⟨symbol, declaration, hmem, hdeclared, fun hk => hunknown (hlasts.knows _ hk)⟩
  cases fault with
  | documentCleared =>
      obtain ⟨file, hfile, hcleared⟩ := h
      exact ⟨file, hback file hfile, hspares.documents file hcleared⟩
  | partitionCleared =>
      obtain ⟨file, hfile, hcleared⟩ := h
      exact ⟨file, hback file hfile, hspares.partitions file hcleared⟩
  | recordCleared key => exact hspares.cache key h
  | _ => trivial

/-- What the cache says stays. -/
def Rests (s t : Session) : Prop :=
  ∀ key slot, s.store.cache.get? key = some slot → t.store.cache.get? key = some slot

theorem Rests.of_cache (h : t.store.cache = s.store.cache) : s.Rests t :=
  fun _ _ hslot => h ▸ hslot

/-- From a session that is ready, an action gathers or fails with something to blame.  After a
symbol was found to need itself the session can still go on. -/
def gathering (w : Setting) (here : FileId → Prop) : Discipline Session Fault where
  ready := Ready w
  steps s t := Advances w s t ∧ s.Rests t
  blames s fault t := s.Blames w here fault ∧ (¬ fault.IsPlain → Advances w s t ∧ s.Rests t)
  refl _ := ⟨.refl, .of_cache rfl⟩
  trans h h' := ⟨h.1.trans h'.1, fun key slot hslot => h'.2 key slot (h.2 key slot hslot)⟩
  keeps hs h := h.1.ready hs
  carries h hfault := ⟨hfault.1.spared h.1.lasts h.1.spares fun _ hfile => .inl hfile,
    fun hnot => ⟨h.1.trans (hfault.2 hnot).1,
      fun key slot hslot => (hfault.2 hnot).2 key slot (h.2 key slot hslot)⟩⟩

/-- An action that gathers, or fails with something to blame. -/
abbrev Works (w : Setting) (here : FileId → Prop) (act : Running α) (s : Session)
    (post : α → Session → Prop) : Prop :=
  (gathering w here).Follows act s post

theorem works_throw {fault : Fault} {post : α → Session → Prop} (h : s.Blames w here fault)
    (hplain : fault.IsPlain) : Works w here (throw fault) s post :=
  follows_throw ⟨h, fun hnot => absurd hplain hnot⟩

theorem isPlain_of_excuses {store : Store} {files : FileId → Prop} {fault : Fault}
    (h : store.Excuses files fault) : fault.IsPlain := by
  rintro key rfl
  exact h

/-- An operation on the store, which may touch files that declare symbols nobody has met. -/
theorem works_store {act : Store.Storing α} {post : α → Store → Prop} {files : FileId → Prop}
    (h : s.store.Orderly w → Store.Works w files act s.store post)
    (hfiles : ∀ file, files file → here file ∨ s.Undiscovered w.program file) :
    Works w here (liftM act : Running α) s fun a t =>
      ∃ store, t = { s with store } ∧ s.store.Gains w store ∧ post a store := by
  intro hs
  refine ensures_onPart.mpr (Ensures.mono (h hs.store hs.store) (fun a store hstore => ?_)
    fun fault _ hfault => ?_)
  · exact ⟨⟨advances_store hstore.1, .of_cache hstore.1.cache⟩, store, rfl, hstore⟩
  · exact ⟨blames_of_excuses hfault hfiles,
      fun hnot => absurd (isPlain_of_excuses hfault) hnot⟩

/-- A question about symbols. -/
theorem works_symbols {act : StateM Symbols α} {post : α → Symbols → Prop}
    (h : Symbols.Asks w.program act s.symbols post) :
    Works w here (liftM act : Running α) s fun a t =>
      ∃ symbols, t = { s with symbols } ∧ post a symbols := by
  intro _
  exact ensures_onPartSafely.mpr ⟨⟨.single (.learns h.1), .of_cache rfl⟩, _, rfl, h.2⟩

/-- The line range of coordinates. -/
theorem lineRange_works {range : TextRange} :
    Works w here (lineRange w file range) s fun span t =>
      t.store = s.store ∧ t.symbols = s.symbols ∧ span = w.program.span ⟨file, range⟩ := by
  intro hs
  refine ensures_bind.mpr (ensures_bind.mpr (ensures_get.mpr ?_))
  split
  · rename_i index hindex
    rw [hs.lines file index hindex]
    exact ensures_pure.mpr ⟨(gathering w here).refl hs, rfl, rfl, rfl⟩
  · refine ensures_bind.mpr (ensures_modify.mpr (ensures_pure.mpr (ensures_pure.mpr ?_)))
    exact ⟨⟨.single .counts, .of_cache rfl⟩, rfl, rfl, rfl⟩

end Session

end SymbolGraph
