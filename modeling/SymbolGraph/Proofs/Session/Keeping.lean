import SymbolGraph.Proofs.Store.Balance
import SymbolGraph.Session.Basic

/-!
# Proofs — Session — a session in order

A session is sound whatever fails.  It is in order when records are written to in their time and the
books balance; that is kept by whatever ends well, and also when a symbol turns out to need itself,
because then nothing has been begun.

* `Session.Sound`, `Session.Leads`: what holds whatever fails.
* `Session.InOrder`, `Session.Keeps`: what is kept by what ends well.
* `Session.Does`, `Session.Runs`, `Session.Walks`: three ways of describing an action, by what is
  known of it when it fails.
-/

namespace SymbolGraph.Session

open SymbolGraph.Action

variable {faults : Nat → Option SinkFault} {s t u : Session} {α β : Type}

/-- The store is sound, and what is kept as a definition range is a range. -/
structure Sound (faults : Nat → Option SinkFault) (s : Session) : Prop where
  store       : s.store.Sound faults
  definitions : ∀ entry ∈ s.definitions.entries, Delivered s.store.elements .range entry.2.id

/-- The session that an action leaves, however it ends. -/
structure Leads (faults : Nat → Option SinkFault) (s t : Session) : Prop where
  sound : t.Sound faults
  grows : s.store.Grows t.store

theorem Leads.refl (h : s.Sound faults) : s.Leads faults s := ⟨h, .refl _⟩

/-- A session is led on over two actions. -/
theorem Leads.trans (h : s.Leads faults t) (h' : t.Leads faults u) : s.Leads faults u :=
  ⟨h'.sound, h.grows.trans h'.grows⟩

instance : IsTrans Session (Leads faults) := ⟨fun _ _ _ h h' => h.trans h'⟩

/-- Records are written to in their time, and the books balance. -/
structure InOrder (s : Session) : Prop where
  lasting  : s.store.Lasting
  balanced : s.store.Balanced

/-- The session that an action leaves when it ends well. -/
structure Keeps (faults : Nat → Option SinkFault) (s t : Session) : Prop where
  leads : s.Leads faults t
  order : s.InOrder → t.InOrder

theorem Keeps.refl (h : s.Sound faults) : s.Keeps faults s := ⟨.refl h, id⟩

/-- What is kept by two actions is kept by both together. -/
theorem Keeps.trans (h : s.Keeps faults t) (h' : t.Keeps faults u) : s.Keeps faults u :=
  ⟨h.leads.trans h'.leads, fun ho => h'.order (h.order ho)⟩

theorem Keeps.sound (h : s.Keeps faults t) : t.Sound faults := h.leads.sound

/-! ### Actions that fail plainly -/

/-- An action on a session, described by how it may fail and how it ends well. -/
abbrev Does (faults : Nat → Option SinkFault) (act : Running α) (s : Session)
    (post : α → Session → Prop) : Prop :=
  Action.Does (Leads faults) Fault.IsPlain act s post

theorem does_pure {a : α} {post : α → Session → Prop} (h : post a s) :
    Does faults (pure a) s post :=
  ensures_pure.mpr h

theorem does_modify {f : Session → Session} : Does faults (modify f) s fun _ t => t = f s :=
  ensures_modify.mpr rfl

theorem leads_store (hs : s.Sound faults) {store : Store} (h : s.store.Leads faults store) :
    s.Leads faults { s with store } :=
  ⟨⟨h.sound, fun entry he => (hs.definitions entry he).mono h.grows.elements⟩, h.grows⟩

/-- An action on the store leaves the rest of the session alone. -/
theorem does_store {act : Store.Storing α} {post : α → Store → Prop} (hs : s.Sound faults)
    (h : Store.Does faults act s.store post) :
    Does faults (liftM act : Running α) s fun a t => ∃ store, t = { s with store } ∧ post a store :=
  ensures_onPart.mpr (Ensures.mono h (fun _ store hpost => ⟨store, rfl, hpost⟩)
    fun _ _ hf => ⟨leads_store hs hf.1, hf.2⟩)

/-- An action on the store that posts nothing. -/
theorem keeps_store (hs : s.Sound faults) {store : Store} (h : s.store.Posts faults store ∅) :
    s.Keeps faults { s with store } :=
  ⟨leads_store hs h.leads, fun ho => ⟨h.lasting ho.lasting, ho.balanced.settle ho.lasting h⟩⟩

/-- Reading off a range only remembers the lines of its file. -/
theorem lineRange_does (w : Setting) (file : FileId) (range : TextRange) :
    Does faults (lineRange w file range) s fun _ t =>
      ∃ lineIndexes, t = { s with lineIndexes } := by
  unfold lineRange lineIndex
  refine ensures_bind.mpr (ensures_bind.mpr (ensures_get.mpr ?_))
  split
  · exact ensures_pure.mpr ⟨s.lineIndexes, rfl⟩
  · exact ensures_bind.mpr (ensures_modify.mpr ⟨_, rfl⟩)

/-! ### Actions that may find a symbol that needs itself -/

/-- An action that ends well with `post`, and keeps a session in order unless it fails plainly. -/
def Runs (faults : Nat → Option SinkFault) (act : Running α) (s : Session)
    (post : α → Session → Prop) : Prop :=
  Ensures act s (fun a t => s.Keeps faults t ∧ post a t)
    fun fault t => s.Leads faults t ∧ (¬ fault.IsPlain → s.Keeps faults t)

/-- What is done plainly runs. -/
theorem Does.runs {act : Running α} {post : α → Session → Prop}
    (h : Does faults act s fun a t => s.Keeps faults t ∧ post a t) : Runs faults act s post :=
  Ensures.mono h (fun _ _ hp => hp) fun _ _ hf => ⟨hf.1, fun hnot => absurd hf.2 hnot⟩

theorem Runs.mono {act : Running α} {post post' : α → Session → Prop} (h : Runs faults act s post)
    (hp : ∀ a t, s.Keeps faults t → post a t → post' a t) : Runs faults act s post' :=
  Ensures.mono h (fun a t h => ⟨h.1, hp a t h.1 h.2⟩) fun _ _ h => h

/-- What runs on from a session that was kept runs on from the one before. -/
theorem Keeps.runs {act : Running α} {post : α → Session → Prop} (hkeeps : s.Keeps faults t)
    (h : Runs faults act t post) :
    Ensures act t (fun a u => s.Keeps faults u ∧ post a u)
      fun fault u => s.Leads faults u ∧ (¬ fault.IsPlain → s.Keeps faults u) :=
  Ensures.mono h (fun _ _ hu => ⟨hkeeps.trans hu.1, hu.2⟩)
    fun _ _ hu => ⟨hkeeps.leads.trans hu.1, fun hnot => hkeeps.trans (hu.2 hnot)⟩

/-- What comes next runs in the session that the first has left. -/
theorem Runs.bind {act : Running α} {f : α → Running β} {post : α → Session → Prop}
    {post' : β → Session → Prop} (h : Runs faults act s post)
    (hf : ∀ a t, s.Keeps faults t → post a t → Runs faults (f a) t post') :
    Runs faults (act >>= f) s post' := by
  refine ensures_bind.mpr (Ensures.mono h ?_ fun _ _ h => h)
  rintro a t ⟨hkeeps, hpost⟩
  exact hkeeps.runs (hf a t hkeeps hpost)

theorem Runs.discard {act : Running α} {post : Session → Prop}
    (h : Runs faults act s fun _ t => post t) : Runs faults (discard act) s fun _ t => post t :=
  ensures_discard.mpr h

theorem runs_pure (hs : s.Sound faults) {a : α} {post : α → Session → Prop} (h : post a s) :
    Runs faults (pure a) s post :=
  ensures_pure.mpr ⟨.refl hs, h⟩

/-- An action on the store that posts nothing. -/
theorem runs_store {act : Store.Storing α} (post : α → Store → Prop) (hs : s.Sound faults)
    (h : Store.Does faults act s.store fun a store => s.store.Posts faults store ∅ ∧ post a store) :
    Runs faults (liftM act : Running α) s fun a t => post a t.store :=
  Does.runs ((does_store hs h).mono fun _ _ ⟨_, heq, hposts, hpost⟩ =>
    heq ▸ ⟨keeps_store hs hposts, hpost⟩)

/-- An action on the tables about symbols leaves the store alone. -/
theorem runs_symbols (hs : s.Sound faults) (act : StateM Symbols α) :
    Runs faults (liftM act : Running α) s fun _ _ => True :=
  ensures_onPartSafely.mpr ⟨⟨⟨⟨hs.store, hs.definitions⟩, .refl _⟩,
    fun ho => ⟨ho.lasting, ho.balanced⟩⟩, trivial⟩

/-- What every round keeps, all rounds keep. -/
theorem runs_forM {f : α → Running PUnit} {l : List α} (inv : Session → Prop) (hs : s.Sound faults)
    (hinv : inv s) (h : ∀ a t, t.Sound faults → inv t → Runs faults (f a) t fun _ u => inv u) :
    Runs faults (l.forM f) s fun _ t => inv t := by
  refine Ensures.forM (fun _ t => s.Keeps faults t ∧ inv t) (fun a rest t ⟨hkeeps, ht⟩ => ?_)
    ⟨.refl hs, hinv⟩
  exact hkeeps.runs (h a t hkeeps.sound ht)

/-! ### Actions that go on after a fault -/

/-- An action that keeps a session in order when it ends well. -/
def Walks (faults : Nat → Option SinkFault) (act : Running α) (s : Session) : Prop :=
  Ensures act s (fun _ t => s.Keeps faults t) fun _ t => s.Leads faults t

/-- What runs walks. -/
theorem Runs.walks {act : Running α} {post : α → Session → Prop} (h : Runs faults act s post) :
    Walks faults act s :=
  Ensures.mono h (fun _ _ hp => hp.1) fun _ _ hf => hf.1

theorem Walks.discard {act : Running α} (h : Walks faults act s) : Walks faults (discard act) s :=
  ensures_discard.mpr h

/-- What comes next walks in the session that the first has left. -/
theorem Walks.bind {act : Running α} {f : α → Running β} (h : Walks faults act s)
    (hf : ∀ a t, s.Keeps faults t → Walks faults (f a) t) : Walks faults (act >>= f) s := by
  refine ensures_bind.mpr (Ensures.mono h (fun a t hkeeps => ?_) fun _ _ h => h)
  exact Ensures.mono (hf a t hkeeps) (fun b u hb => hkeeps.trans hb)
    fun fault u hu => hkeeps.leads.trans hu

/-- Whatever has to be done at the end is done on a sound session. -/
theorem Walks.andThen {act last : Running Unit} (h : Walks faults act s)
    (hlast : ∀ t, t.Sound faults → Walks faults last t) : Walks faults (andThen act last) s := by
  refine ensures_andThen.mpr (Ensures.mono h (fun _ t hkeeps => ?_) fun _ t hleads => ?_)
  · exact Ensures.mono (hlast t hkeeps.sound) (fun _ u hu => hkeeps.trans hu)
      fun _ u hu => hkeeps.leads.trans hu
  · exact Ensures.mono (hlast t hleads.sound) (fun _ u hu => hleads.trans hu.leads)
      fun _ u hu => hleads.trans hu

/-- In a sound session, what walks round by round walks. -/
theorem walks_forM {f : α → Running PUnit} {l : List α} (hs : s.Sound faults)
    (h : ∀ a t, t.Sound faults → Walks faults (f a) t) : Walks faults (l.forM f) s := by
  refine Ensures.forM (fun _ t => s.Keeps faults t) (fun a rest t hkeeps => ?_) (.refl hs)
  exact Ensures.mono (h a t hkeeps.sound) (fun _ u hu => hkeeps.trans hu)
    fun _ u hu => hkeeps.leads.trans hu

end SymbolGraph.Session
