import SymbolGraph.Document
import SymbolGraph.Proofs.Record.Draining

/-!
# Proofs — interruption

A sink that is to refuse an element is compared with one that takes everything.  Until the refusal an
action does the same over both.  At the refusal it stops: it hands over nothing more, it fails with
the fault of the sink, and what it has handed over is the beginning of what it hands over to the other
sink.  The comparison goes through everything that an action is made of, and through what tidies up
after a failure only if that hands over nothing.  It does not depend on what makes the sink refuse.

* `Interruption`: a way in which sinks come to refuse elements.
* `Interruption.atCall`: a memory that is to refuse a call.
* `HasSink`: states with a sink, and the same states over another sink.
* `Parallels`: how two runs compare.
* `FailStop`: an action that is interrupted by the first refusal.
* `FailStop.bind`, `FailStop.onPart` and the others: what is put together of such actions.
* `Graph.deliver_failStop`: where elements are handed over.
-/

namespace SymbolGraph

open SymbolGraph.Action

/-! ### How an action ends -/

namespace Action

variable {ε σ α β : Type}

/-- A sequence goes on where its first part ended well. -/
theorem bind_run (act : EStateM ε σ α) (f : α → EStateM ε σ β) (s : σ) :
    (act >>= f) s = match act s with
      | .ok a t    => f a t
      | .error e t => .error e t := rfl

/-- A fault that was caught is handed on. -/
theorem attempt_bind_run (act : EStateM ε σ α) (f : Except ε α → EStateM ε σ β) (s : σ) :
    (attempt act >>= f) s = match act s with
      | .ok a t    => f (.ok a) t
      | .error e t => f (.error e) t := by
  simp only [bind, EStateM.bind, Action.attempt]
  cases act s with
  | ok a t => rfl
  | error e t => rfl

/-- Tidying up is done after a failure, in the state that it left. -/
theorem onFailure_run (act : EStateM ε σ α) (tidy : EStateM ε σ Unit) (s : σ) :
    onFailure act tidy s = match act s with
      | .ok a t    => .ok a t
      | .error e t => (tidy >>= fun _ => throw e) t := by
  unfold onFailure
  rw [attempt_bind_run]
  cases act s with
  | ok a t => rfl
  | error e t => rfl

/-- What comes last is done in either case. -/
theorem andThen_run (act last : EStateM ε σ Unit) (s : σ) : andThen act last s =
    match act s with
    | .ok _ t    => last t
    | .error e t => .error e (final (last t)) := by
  unfold Action.andThen
  rw [attempt_bind_run]
  cases act s with
  | ok a t =>
      dsimp only
      rw [attempt_bind_run]
      cases last t with
      | ok b u => rfl
      | error e u => rfl
  | error e t =>
      dsimp only
      rw [attempt_bind_run]
      cases last t with
      | ok b u => rfl
      | error e u => rfl

end Action

/-! ### Sinks -/

namespace Sink

/-- How often a sink has been handed an element. -/
def calls : Sink → Nat
  | memory _ calls _ => calls
  | lines _ _ _      => 0

/-- The sink as it would be if it took everything from now on. -/
def mended : Sink → Sink
  | memory _ calls kept => memory (fun _ => none) calls kept
  | sink                => sink

/-- The sink has kept what it was handed, and the call with number `n` will be the first to fail. -/
def Awaits (n : Nat) (fault : SinkFault) : Sink → Prop
  | memory faults calls kept => calls ≤ n ∧ kept.size = calls ∧ (∀ call < n, faults call = none) ∧
      faults n = some fault
  | lines _ _ _ => False

/-- The call with number `n` has failed, and there was none after it. -/
def Refused (n : Nat) : Sink → Prop
  | memory _ calls kept => calls = n + 1 ∧ kept.size = n
  | lines _ _ _         => False

/-- A fault that is still to come was not met. -/
theorem Awaits.not_refused {n : Nat} {fault : SinkFault} {sink : Sink} (h : sink.Awaits n fault) :
    ¬ sink.Refused n := by
  intro hrefused
  cases sink with
  | memory faults calls kept =>
      have hcalls : calls = n + 1 := hrefused.1
      have hle : calls ≤ n := h.1
      omega
  | lines => exact h

/-- Until the fault has come, no more than the calls before it were made. -/
theorem Awaits.calls_le {n : Nat} {fault : SinkFault} {sink : Sink} (h : sink.Awaits n fault) :
    sink.mended.calls ≤ n := by
  cases sink with
  | memory faults calls kept => exact h.1
  | lines => exact h.elim

/-- Once the fault has come, no call is made after it. -/
theorem Refused.calls_eq {n : Nat} {sink : Sink} (h : sink.Refused n) :
    sink.calls = n + 1 ∧ sink.elements.length = n := by
  cases sink with
  | memory faults calls kept => exact ⟨h.1, Array.length_toList.trans h.2⟩
  | lines => exact h.elim

/-- One sink has taken what the other has, and perhaps more. -/
structure Precedes (s t : Sink) : Prop where
  elements : s.elements <+: t.elements
  bytes    : s.bytes <+: t.bytes

instance : IsPreorder Sink Precedes where
  refl _ := ⟨List.prefix_refl _, List.prefix_refl _⟩
  trans _ _ _ h h' := ⟨h.elements.trans h'.elements, h.bytes.trans h'.bytes⟩

/-- A sink loses nothing. -/
theorem emit_precedes (e : Element) : Stays Precedes (emit e) := by
  intro sink
  refine ensures_bind.mpr (ensures_get.mpr ?_)
  cases sink with
  | memory faults calls kept =>
      dsimp only
      cases faults calls with
      | none => exact ⟨⟨[e], (Array.toList_push ..).symm⟩, List.prefix_refl _⟩
      | some fault => exact ⟨List.prefix_refl _, List.prefix_refl _⟩
  | lines limit flushFault written =>
      have hpart (more : List UInt8) : written.toList <+: (written ++ more).toList :=
        ⟨more, (Array.toList_appendList ..).symm⟩
      have hwhole (more : List UInt8) : written.toList <+: ((written ++ more).push 0x0a).toList :=
        (hpart more).trans ⟨[0x0a], (Array.toList_push ..).symm⟩
      cases limit with
      | none =>
          dsimp only
          rw [if_neg (by omega), if_neg (by omega)]
          exact ⟨List.prefix_refl _, hwhole _⟩
      | some room =>
          dsimp only
          split
          · exact ⟨List.prefix_refl _, hpart _⟩
          · split
            · exact ⟨List.prefix_refl _, hpart _⟩
            · exact ⟨List.prefix_refl _, hwhole _⟩

/-- Flushing hands over no element. -/
theorem flush_precedes : Stays Precedes flush := by
  refine stays_get.bind fun sink => ?_
  split
  · exact stays_throw
  · exact stays_pure

end Sink

/-! ### Interruptions -/

/-- A way in which sinks come to refuse elements, compared with sinks that never do. -/
structure Interruption where
  /-- The sink has taken what it was handed so far. -/
  Awaits : Sink → Prop
  /-- The sink as it would be if it took everything from now on. -/
  mended : Sink → Sink
  /-- A sink has refused an element with a fault, and a mended sink has come as far as another. -/
  Cuts   : SinkFault → Sink → Sink → Prop
  emit   : ∀ {s : Sink} (e : Element), Awaits s →
    (∃ t, Sink.emit e s = .ok () t ∧ Sink.emit e (mended s) = .ok () (mended t) ∧ Awaits t) ∨
    ∃ fault t, Sink.emit e s = .error fault t ∧ Cuts fault t (final (Sink.emit e (mended s)))
  flush  : ∀ {s : Sink}, Awaits s →
    Sink.flush s = .ok () s ∧ Sink.flush (mended s) = .ok () (mended s)
  /-- A sink that was cut off stays behind whatever the mended sink takes later. -/
  later  : ∀ {fault : SinkFault} {s t u : Sink}, Cuts fault s t → t.Precedes u → Cuts fault s u
  apart  : ∀ {fault : SinkFault} {s : Sink}, Awaits s → ¬ Cuts fault s (mended s)

namespace Interruption

/-- The call with number `n` is refused. -/
def atCall (n : Nat) (fault : SinkFault) : Interruption where
  Awaits := Sink.Awaits n fault
  mended := Sink.mended
  Cuts refusal s t := refusal = fault ∧ s.Refused n ∧ s.elements <+: t.elements
  emit {s} e hs := by
    cases s with
    | lines => exact hs.elim
    | memory faults calls kept =>
        obtain ⟨hle, hsize, hnone, hsome⟩ := hs
        rcases Nat.lt_or_eq_of_le hle with hlt | rfl
        · refine .inl ⟨.memory faults (calls + 1) (kept.push e), ?_, rfl, hlt, ?_, hnone, hsome⟩
          · rw [Graph.emit_memory, hnone calls hlt]
          · rw [Array.size_push, hsize]
        · refine .inr ⟨fault, .memory faults (calls + 1) kept, ?_, rfl, ⟨rfl, hsize⟩, ?_⟩
          · rw [Graph.emit_memory, hsome]
          · show kept.toList <+: (kept.push e).toList
            rw [Array.toList_push]
            exact List.prefix_append _ _
  flush {s} hs := by
    cases s with
    | lines => exact hs.elim
    | memory faults calls kept => exact ⟨rfl, rfl⟩
  later h hmore := ⟨h.1, h.2.1, h.2.2.trans hmore.elements⟩
  apart hs h := hs.not_refused h.2.1

end Interruption

/-! ### States with a sink -/

/-- A state with a sink. -/
class HasSink (σ : Type) where
  sink : σ → Sink
  /-- The state over another sink. -/
  onSink : (Sink → Sink) → σ → σ
  sink_onSink : ∀ change s, sink (onSink change s) = change (sink s)
  /-- A file has a document; where a state has no documents, none has. -/
  Documented : σ → FileId → Prop
  documented_onSink : ∀ change s file, Documented s file → Documented (onSink change s) file

open HasSink

instance : HasSink Graph where
  sink := Graph.sink
  onSink change g := { g with sink := change g.sink }
  sink_onSink _ _ := rfl
  Documented _ _ := False
  documented_onSink _ _ _ h := h

variable {σ τ α β : Type} [HasSink σ] [HasSink τ]

/-- The state over a sink that takes everything. -/
abbrev Interruption.mend (c : Interruption) : σ → σ := onSink c.mended

/-- What was taken stays taken, and documents stay known. -/
structure Swells (s t : σ) : Prop where
  taken      : (sink s).Precedes (sink t)
  documented : ∀ file, Documented s file → Documented t file

instance : IsPreorder σ Swells where
  refl _ := ⟨refl_of Sink.Precedes _, fun _ h => h⟩
  trans _ _ _ h h' := ⟨trans_of Sink.Precedes h.taken h'.taken,
    fun file hfile => h'.documented file (h.documented file hfile)⟩

/-- Nothing is handed over. -/
def Quiet (s t : σ) : Prop := sink t = sink s

instance : IsPreorder σ Quiet where
  refl _ := rfl
  trans _ _ _ h h' := Eq.trans h' h

/-- Where nothing is handed over, what was taken stays taken. -/
theorem Quiet.taken {s t : σ} (h : Quiet s t) : (sink s).Precedes (sink t) :=
  h ▸ refl_of Sink.Precedes _

/-- A run over a sink that is to be interrupted, and the same run over a mended sink: they end alike,
and the refusal is still to come; or the first one was interrupted by it. -/
inductive Parallels (c : Interruption) :
    EStateM.Result Fault σ α → EStateM.Result Fault σ α → Prop
  | ok {a : α} {t : σ} : c.Awaits (sink t) → Parallels c (.ok a t) (.ok a (c.mend t))
  | error {e : Fault} {t : σ} : c.Awaits (sink t) → Parallels c (.error e t) (.error e (c.mend t))
  | interrupted {fault : SinkFault} {t : σ} {result : EStateM.Result Fault σ α} :
      c.Cuts fault (sink t) (sink (final result)) → Parallels c (.error (.sink fault) t) result

/-- From a state, an action is interrupted by the first refusal and until then takes no notice. -/
def StopsFrom (act : EStateM Fault σ α) (s : σ) : Prop :=
  ∀ c : Interruption, c.Awaits (sink s) → Parallels c (act s) (act (c.mend s))

/-- An action that is interrupted by the first refusal of the sink, from wherever it starts. -/
structure FailStop (act : EStateM Fault σ α) : Prop where
  stops  : ∀ s, StopsFrom act s
  swells : Stays Swells act

/-! ### Putting actions together -/

variable {act : EStateM Fault σ α} {s : σ}

theorem failStop_pure {a : α} : FailStop (pure a : EStateM Fault σ α) :=
  ⟨fun _ _ hs => .ok hs, stays_pure⟩

theorem failStop_throw {fault : Fault} : FailStop (throw fault : EStateM Fault σ α) :=
  ⟨fun _ _ hs => .error hs, stays_throw⟩

theorem failStop_ofExcept {result : Except Fault α} :
    FailStop (Action.ofExcept result : EStateM Fault σ α) := by
  cases result with
  | ok a => exact failStop_pure
  | error fault => exact failStop_throw

/-- What is asked of a state is not about its sink. -/
theorem failStop_get {f : σ → EStateM Fault σ α} (h : ∀ s, FailStop (f s))
    (hmend : ∀ change s, f (onSink change s) = f s) : FailStop (get >>= f) := by
  refine ⟨fun s c hs => ?_, stays_get.bind fun s => (h s).swells⟩
  show Parallels c (f s s) (f (c.mend s) (c.mend s))
  rw [hmend]
  exact (h s).stops s c hs

/-- A change that is not about the sink. -/
theorem failStop_modify {f : σ → σ} (hmend : ∀ change s, f (onSink change s) = onSink change (f s))
    (hquiet : ∀ s, Quiet s (f s)) (hknown : ∀ s file, Documented s file → Documented (f s) file) :
    FailStop (modify f) := by
  refine ⟨fun s c hs => ?_, stays_modify fun s => ⟨(hquiet s).taken, hknown s⟩⟩
  show Parallels c (.ok () (f s)) (.ok () (f (c.mend s)))
  rw [hmend]
  exact .ok ((hquiet s).symm ▸ hs)

/-- A run that was interrupted stays behind what the mended sink takes later. -/
theorem Parallels.later {c : Interruption} {fault : SinkFault} {t u : σ}
    {result : EStateM.Result Fault σ β} (hcut : c.Cuts fault (sink t) (sink u))
    (hmore : Swells u (final result)) : Parallels c (.error (.sink fault) t) result :=
  .interrupted (c.later hcut hmore.taken)

/-- An action whose first part makes ready for the second one. -/
theorem FailStop.bindReady {f : α → EStateM Fault σ β} (h : FailStop act) (ready : α → σ → Prop)
    (hready : ∀ s, Ensures act s ready fun _ _ => True)
    (hf : ∀ a t, ready a t → StopsFrom (f a) t) (hswells : ∀ a, Stays Swells (f a)) :
    FailStop (act >>= f) := by
  refine ⟨fun s c hs => ?_, h.swells.bind hswells⟩
  have hact := h.stops s c hs
  have hend := hready s
  rw [bind_run, bind_run]
  unfold Ensures at hend
  generalize act s = result at hact hend
  generalize act (c.mend s) = other at hact
  cases hact with
  | ok ht => exact hf _ _ hend c ht
  | error ht => exact .error ht
  | interrupted hcut =>
      cases other with
      | error e u => exact .interrupted hcut
      | ok b u => exact .later hcut (hswells b u).final

/-- A refusal in the first part ends the whole; else the second part meets it. -/
theorem FailStop.bind {f : α → EStateM Fault σ β} (h : FailStop act) (hf : ∀ a, FailStop (f a)) :
    FailStop (act >>= f) :=
  h.bindReady (fun _ _ => True)
    (fun s => (h.swells s).mono (fun _ _ _ => trivial) fun _ _ _ => trivial)
    (fun a t _ => (hf a).stops t) fun a => (hf a).swells

theorem FailStop.discard (h : FailStop act) : FailStop (discard act) := by
  refine ⟨fun s c hs => ?_, h.swells.discard⟩
  have hact := h.stops s c hs
  simp only [Functor.discard, Functor.mapConst, EStateM.map, Function.comp]
  generalize act s = result at hact
  generalize act (c.mend s) = other at hact
  cases hact with
  | ok ht => exact .ok ht
  | error ht => exact .error ht
  | interrupted hcut =>
      cases other with
      | ok b u => exact .interrupted hcut
      | error e u => exact .interrupted hcut

/-- By induction on the list: the first refusal ends the rounds. -/
theorem FailStop.forM {f : α → EStateM Fault σ PUnit} (list : List α) (hf : ∀ a, FailStop (f a)) :
    FailStop (list.forM f) := by
  induction list with
  | nil => exact failStop_pure
  | cons a rest ih => exact (hf a).bind fun _ => ih

/-- An action on a part of the state that has the sink. -/
theorem FailStop.onPart {part : σ → τ} {replace : τ → σ → σ} {act : EStateM Fault τ α}
    (h : FailStop act) (hsink : ∀ s, sink (part s) = sink s)
    (hmend : ∀ change s, part (onSink change s) = onSink change (part s))
    (hsink' : ∀ t s, sink (replace t s) = sink t)
    (hmend' : ∀ change t s, replace (onSink change t) (onSink change s) = onSink change (replace t s))
    (hknown : ∀ s t, Swells (part s) t → ∀ file, Documented s file → Documented (replace t s) file) :
    FailStop (onPart part replace act) := by
  refine ⟨fun s c hs => ?_, h.swells.onPart fun s t hst => ⟨?_, hknown s t hst⟩⟩
  · have hact := h.stops (part s) c ((hsink s).symm ▸ hs)
    unfold Action.onPart
    rw [hmend]
    generalize act (part s) = result at hact
    generalize act (c.mend (part s)) = other at hact
    cases hact with
    -- Both runs act on the part and put it back alike; only the sinks differ.
    | ok ht =>
        dsimp only
        rw [hmend']
        exact .ok ((hsink' _ _).symm ▸ ht)
    | error ht =>
        dsimp only
        rw [hmend']
        exact .error ((hsink' _ _).symm ▸ ht)
    | interrupted hcut =>
        refine .interrupted ?_
        rw [hsink']
        cases other with
        | ok b u => exact (hsink' u _).symm ▸ hcut
        | error e u => exact (hsink' u _).symm ▸ hcut
  · rw [hsink', ← hsink s]
    exact hst.taken

/-- An action on a part of the state that the sink is no part of. -/
theorem failStop_onPartSafely {τ : Type} {part : σ → τ} {replace : τ → σ → σ} {act : StateM τ α}
    (hmend : ∀ change s, part (onSink change s) = part s)
    (hmend' : ∀ change t s, replace t (onSink change s) = onSink change (replace t s))
    (hquiet : ∀ t s, Quiet s (replace t s))
    (hknown : ∀ t s file, Documented s file → Documented (replace t s) file) :
    FailStop (onPartSafely part replace act : EStateM Fault σ α) := by
  refine ⟨fun s c hs => ?_, stays_onPartSafely fun s t => ⟨(hquiet t s).taken, hknown t s⟩⟩
  show Parallels c (.ok (act (part s)).1 (replace (act (part s)).2 s))
    (.ok (act (part (c.mend s))).1 (replace (act (part (c.mend s))).2 (c.mend s)))
  rw [hmend, hmend']
  exact .ok ((hquiet _ s).symm ▸ hs)

/-! ### Tidying up -/

/-- Whoever looks at how an action ended passes the fault of the sink on. -/
theorem FailStop.attemptBind {f : Except Fault α → EStateM Fault σ β} (h : FailStop act)
    (hf : ∀ result, FailStop (f result))
    (hpasses : ∀ fault, f (.error (.sink fault)) = throw (.sink fault)) :
    FailStop (attempt act >>= f) := by
  refine ⟨fun s c hs => ?_, h.swells.attempt.bind fun result => (hf result).swells⟩
  have hact := h.stops s c hs
  rw [attempt_bind_run, attempt_bind_run]
  generalize act s = result at hact
  generalize act (c.mend s) = other at hact
  cases hact with
  | ok ht => exact (hf _).stops _ c ht
  | error ht => exact (hf _).stops _ c ht
  | interrupted hcut =>
      dsimp only
      rw [hpasses]
      cases other with
      | ok b u => exact .later hcut ((hf (.ok b)).swells u).final
      | error e u => exact .later hcut ((hf (.error e)).swells u).final

/-- Tidying up after a failure, if that cannot fail and hands over nothing. -/
theorem FailStop.onFailure {tidy : EStateM Fault σ Unit} (h : FailStop act) (htidy : FailStop tidy)
    (hquiet : ∀ s, Ensures tidy s (fun _ t => Quiet s t) fun _ _ => False) :
    FailStop (onFailure act tidy) := by
  have hfails (e : Fault) : FailStop (tidy >>= fun _ => throw e : EStateM Fault σ α) :=
    htidy.bind fun _ => failStop_throw
  refine ⟨fun s c hs => ?_, h.swells.attempt.bind fun result => ?_⟩
  · have hact := h.stops s c hs
    rw [onFailure_run, onFailure_run]
    generalize act s = result at hact
    generalize act (c.mend s) = other at hact
    cases hact with
    | ok ht => exact .ok ht
    | error ht => exact (hfails _).stops _ c ht
    -- `tidy` leaves the sink alone, so the cut is where `act` was interrupted.
    | @interrupted fault t _ hcut =>
        have hend := hquiet t
        unfold Ensures at hend
        dsimp only
        rw [bind_run]
        generalize tidy t = tidied at hend
        cases tidied with
        | error e u => exact hend.elim
        | ok b u =>
            rw [← show sink u = sink t from hend] at hcut
            cases other with
            | ok b v => exact .interrupted hcut
            | error e v => exact .later hcut ((hfails e).swells v).final
  · cases result with
    | ok a => exact stays_pure
    | error e => exact (hfails e).swells

/-- An action and then, however it ended, another one that hands over nothing. -/
theorem StopsFrom.andThen {act last : EStateM Fault σ Unit} (h : StopsFrom act s)
    (hswells : Stays Swells act) (hlast : FailStop last)
    (hquiet : ∀ t, (∀ file, Documented s file → Documented t file) →
      Ensures last t (fun _ u => Quiet t u) fun _ u => Quiet t u) :
    StopsFrom (andThen act last) s := by
  intro c hs
  have hact := h c hs
  have hmore := (hswells s).final.documented
  rw [andThen_run, andThen_run]
  generalize act s = result at hact hmore
  generalize act (c.mend s) = other at hact
  cases hact with
  | ok ht => exact hlast.stops _ c ht
  | @error e t ht =>
      -- What hands over nothing is not interrupted.
      have hsame := hlast.stops t c ht
      have hend := (hquiet t hmore).final
      have hend' : sink (final (last (c.mend t))) = c.mended (sink t) :=
        (hquiet (c.mend t) fun file h => documented_onSink _ t file (hmore file h)).final.trans
          (sink_onSink _ t)
      dsimp only
      generalize last t = tidied at hsame hend
      generalize last (c.mend t) = tidied' at hsame hend'
      cases hsame with
      | ok hu => exact .error hu
      | error hu => exact .error hu
      | @interrupted fault u _ hcut =>
          rw [hend', show sink u = sink t from hend] at hcut
          exact (c.apart ht hcut).elim
  | @interrupted fault t _ hcut =>
      have hend : sink (final (last t)) = sink t := (hquiet t hmore).final
      rw [← hend] at hcut
      cases other with
      | ok b u => exact .later hcut (hlast.swells u).final
      | error e u => exact .later hcut (hlast.swells u).final

/-! ### Elements -/

namespace Graph

/-- **An element is handed over.** -/
theorem deliver_failStop (e : Element) : FailStop (deliver e) := by
  refine ⟨fun g c hg => ?_, fun g => ?_⟩
  · replace hg : c.Awaits g.sink := hg
    unfold deliver
    rw [show (c.mend g).sink = c.mended g.sink from rfl]
    rcases c.emit e hg with ⟨place, htaken, hmended, hwaits⟩ | ⟨fault, place, hrefused, hcut⟩
    · rw [htaken, hmended]
      exact .ok hwaits
    · rw [hrefused]
      refine .interrupted ?_
      generalize Sink.emit e (c.mended g.sink) = other at hcut
      cases other with
      | ok b mended => exact hcut
      | error e mended => exact hcut
  · have hemit := Sink.emit_precedes e g.sink
    unfold Ensures deliver at *
    generalize Sink.emit e g.sink = result at hemit
    cases result with
    | ok b place => exact ⟨hemit, fun _ => False.elim⟩
    | error fault place => exact ⟨hemit, fun _ => False.elim⟩

/-- Taking an id is no call. -/
theorem freshId_failStop : FailStop freshId := by
  refine FailStop.bind (failStop_modify ?_ ?_ ?_) fun _ => ?_
  · exact fun _ _ => rfl
  · exact fun _ => rfl
  · exact fun _ _ h => h
  · exact failStop_get (fun _ => failStop_pure) fun _ _ => rfl

theorem vertex_failStop (v : Vertex) : FailStop (vertex v) :=
  freshId_failStop.bind fun _ => (deliver_failStop _).bind fun _ => failStop_pure

theorem edge_failStop (e : Edge) : FailStop (edge e) :=
  freshId_failStop.bind fun _ => (deliver_failStop _).bind fun _ => failStop_pure

theorem link_failStop (kind : LinkKind) (source target : ElementId) :
    FailStop (link kind source target) :=
  edge_failStop _

/-- Without targets there is no call at all. -/
theorem contains_failStop (source : VertexRef) (targets : List ElementId) :
    FailStop (contains source targets) := by
  unfold contains
  cases Edge.containing source targets with
  | some e => exact edge_failStop e
  | none => exact failStop_throw

theorem item_failStop (source : VertexRef) (targets : List ElementId) (document : ElementId)
    (property : ItemProperty) : FailStop (item source targets document property) := by
  unfold item
  cases Edge.listing source targets document property with
  | some e => exact edge_failStop e
  | none => exact failStop_throw

/-- Flushing hands over nothing. -/
theorem flush_failStop : FailStop flush := by
  refine ⟨fun g c hg => ?_, fun g => ?_⟩
  · replace hg : c.Awaits g.sink := hg
    obtain ⟨hflush, hmended⟩ := c.flush hg
    unfold flush
    rw [show (c.mend g).sink = c.mended g.sink from rfl, hflush, hmended]
    exact .ok hg
  · have hflush := Sink.flush_precedes g.sink
    unfold Ensures flush at *
    generalize Sink.flush g.sink = result at hflush
    cases result with
    | ok b place => exact ⟨hflush, fun _ => False.elim⟩
    | error fault place => exact ⟨hflush, fun _ => False.elim⟩

end Graph

/-! ### Documents and the project -/

theorem Document.emitRanges_failStop (known : Document) : FailStop known.emitRanges := by
  unfold Document.emitRanges
  split
  · exact failStop_pure
  · exact (Graph.contains_failStop _ _).discard

theorem Document.emitSymbols_failStop (known : Document) (withSymbols : Bool) :
    FailStop (known.emitSymbols withSymbols) := by
  unfold Document.emitSymbols
  split
  · exact (Graph.vertex_failStop _).bind fun _ => (Graph.link_failStop _ _ _).discard
  · exact failStop_pure

/-- A document that ends hands over what it contains and its symbols. -/
theorem Document.finish_failStop (known : Document) (withSymbols : Bool) :
    FailStop (known.finish withSymbols) := by
  have hemits := known.emitRanges_failStop.bind fun _ => known.emitSymbols_failStop withSymbols
  unfold Document.finish
  dsimp only
  split
  · exact hemits
  · exact failStop_throw.bind fun _ => hemits

instance : HasSink Project.Ledger where
  sink l := l.graph.sink
  onSink change l := { l with graph := onSink change l.graph }
  sink_onSink _ _ := rfl
  Documented _ _ := False
  documented_onSink _ _ _ h := h

/-- A project hands over its documents, if it has any. -/
theorem Project.finish_failStop : FailStop Project.finish := by
  refine ⟨fun l c hl => ?_, fun l => ?_⟩
  · have hcontains := (Graph.contains_failStop l.project.vertex l.project.documents).stops l.graph
      c hl
    unfold Project.finish
    show Parallels c _ (if l.project.documents.isEmpty then _ else _)
    split
    · exact .ok hl
    · dsimp only
      rw [show (c.mend l).project = l.project from rfl,
        show (c.mend l).graph = c.mend l.graph from rfl]
      generalize Graph.contains l.project.vertex l.project.documents l.graph = result at hcontains
      generalize Graph.contains l.project.vertex l.project.documents (c.mend l.graph) = other
        at hcontains
      cases hcontains with
      | ok hg => exact .ok hg
      | error hg => exact .error hg
      | interrupted hcut =>
          refine .interrupted ?_
          cases other with
          | ok b g => exact hcut
          | error e g => exact hcut
  · have hcontains := (Graph.contains_failStop l.project.vertex l.project.documents).swells l.graph
    unfold Ensures Project.finish at *
    by_cases hnone : l.project.documents.isEmpty = true
    · rw [if_pos hnone]
      exact refl_of Swells l
    · rw [if_neg hnone]
      dsimp only
      generalize Graph.contains l.project.vertex l.project.documents l.graph = result at hcontains
      cases result with
      | ok b g => exact ⟨hcontains.taken, fun _ => False.elim⟩
      | error e g => exact ⟨hcontains.taken, fun _ => False.elim⟩

end SymbolGraph
