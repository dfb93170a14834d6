import SymbolGraph.Proofs.Action

/-!
# Proofs — actions that follow a discipline

Most of what is proved about a run has one shape: from a state that is ready, an action only takes
steps of a certain kind, and a fault is blamed on the state it started from.  A `Discipline` says
which states are ready, which steps may be taken and what a fault may be blamed on; what follows a
discipline does so however it is put together.

* `Discipline.Follows`: an action follows a discipline, with a postcondition.
* `Discipline.Follows.bind`, `Discipline.Follows.forM`, `Discipline.Follows.forM_all`: sequences and
  loops.
* `Discipline.forM_eq_of`: loops that do the same.
* `Discipline.Follows.after`: an action seen from where the steps before it began.
* `Discipline.among`: the same steps from fewer states.
-/

namespace SymbolGraph

open SymbolGraph.Action

/-- Which states are ready, which steps may be taken, and what a fault may be blamed on: the state
before, and the state that the failed action left. -/
structure Discipline (σ ε : Type) where
  ready   : σ → Prop
  steps   : σ → σ → Prop
  blames  : σ → ε → σ → Prop
  refl    : ∀ {s}, ready s → steps s s
  trans   : ∀ {s t u}, steps s t → steps t u → steps s u
  keeps   : ∀ {s t}, ready s → steps s t → ready t
  carries : ∀ {s t e u}, steps s t → blames t e u → blames s e u

namespace Discipline

variable {σ ε α β : Type} {d : Discipline σ ε}

/-- From a state that is ready, the action takes steps and ends with `post`, or fails and can blame
the state. -/
def Follows (d : Discipline σ ε) (act : EStateM ε σ α) (s : σ) (post : α → σ → Prop) : Prop :=
  d.ready s → Ensures act s (fun a t => d.steps s t ∧ post a t) (d.blames s)

/-- The same steps, from states with a property that they keep; nothing is said of failures. -/
def among (d : Discipline σ ε) (ready : σ → Prop) (hready : ∀ s, ready s → d.ready s)
    (hkeeps : ∀ s t, ready s → d.steps s t → ready t) : Discipline σ ε where
  ready := ready
  steps := d.steps
  blames _ _ _ := True
  refl h := d.refl (hready _ h)
  trans := d.trans
  keeps := hkeeps _ _
  carries _ _ := trivial

variable {act : EStateM ε σ α} {s t : σ} {post post' : α → σ → Prop}

namespace Follows

theorem mono (h : d.Follows act s post) (hp : ∀ a t, post a t → post' a t) :
    d.Follows act s post' :=
  fun hs => Ensures.mono (h hs) (fun a t ht => ⟨ht.1, hp a t ht.2⟩) fun _ _ hf => hf

/-- The steps that were taken count towards the end. -/
theorem imp (h : d.Follows act s post) (hp : ∀ a t, d.steps s t → post a t → post' a t) :
    d.Follows act s post' :=
  fun hs => Ensures.mono (h hs) (fun a t ht => ⟨ht.1, hp a t ht.1 ht.2⟩) fun _ _ hf => hf

/-- What an action does after some steps, seen from where they began. -/
theorem after (h : d.Follows act t post) (hs : d.ready s) (hst : d.steps s t) :
    Ensures act t (fun a u => d.steps s u ∧ post a u) (d.blames s) :=
  Ensures.mono (h (d.keeps hs hst)) (fun _ _ hu => ⟨d.trans hst hu.1, hu.2⟩)
    fun _ _ hf => d.carries hst hf

theorem bind {f : α → EStateM ε σ β} {post' : β → σ → Prop} (h : d.Follows act s post)
    (hf : ∀ a t, d.steps s t → d.ready t → post a t → d.Follows (f a) t post') :
    d.Follows (act >>= f) s post' := by
  intro hs
  rw [ensures_bind]
  refine Ensures.mono (h hs) (fun a t ht => ?_) fun _ _ hfault => hfault
  exact (hf a t ht.1 (d.keeps hs ht.1) ht.2).after hs ht.1

theorem discard {post : σ → Prop} (h : d.Follows act s fun _ t => post t) :
    d.Follows (discard act) s fun _ t => post t :=
  fun hs => ensures_discard.mpr (h hs)

end Follows

theorem follows_pure {a : α} (h : post a s) : d.Follows (pure a) s post :=
  fun hs => ensures_pure.mpr ⟨d.refl hs, h⟩

theorem follows_throw {e : ε} (h : d.blames s e s) : d.Follows (throw e) s post :=
  fun _ => ensures_throw.mpr h

theorem follows_get {f : σ → EStateM ε σ α} (h : d.Follows (f s) s post) :
    d.Follows (get >>= f) s post :=
  fun hs => ensures_bind.mpr (ensures_get.mpr (h hs))

theorem follows_modify {f : σ → σ} (h : d.ready s → d.steps s (f s)) :
    d.Follows (modify f) s fun _ t => t = f s :=
  fun hs => ensures_modify.mpr ⟨h hs, rfl⟩

/-- A loop keeps what each of its rounds keeps. -/
theorem Follows.forM {f : α → EStateM ε σ PUnit} (inv : σ → Prop) :
    ∀ (list : List α), (∀ a ∈ list, ∀ t, inv t → d.Follows (f a) t fun _ u => inv u) →
      ∀ {s : σ}, inv s → d.Follows (list.forM f) s fun _ t => inv t
  | [],        _,  _, h => follows_pure h
  | a :: rest, hf, s, h => (hf a List.mem_cons_self s h).bind fun _ _ _ _ ht =>
      Follows.forM inv rest (fun b hb => hf b (List.mem_cons_of_mem _ hb)) ht

/-- Loops do the same if their rounds do, from all states that are ready. -/
theorem forM_eq_of {f f' : α → EStateM ε σ PUnit} :
    ∀ (list : List α), (∀ a ∈ list, ∀ t, d.ready t →
        f a t = f' a t ∧ d.Follows (f a) t fun _ _ => True) →
      ∀ {s : σ}, d.ready s → list.forM f s = list.forM f' s
  | [],        _, _, _  => rfl
  | a :: rest, h, s, hs => by
      obtain ⟨hsame, hfollows⟩ := h a List.mem_cons_self s hs
      refine bind_eq_of hsame (Ensures.mono (hfollows hs) (fun _ t ht => ?_) fun _ _ _ => trivial)
      exact forM_eq_of rest (fun b hb => h b (List.mem_cons_of_mem _ hb)) (d.keeps hs ht.1)

/-- What each round of a loop brings about holds at the end, if no step undoes it. -/
theorem Follows.forM_all {f : α → EStateM ε σ PUnit} {post : α → σ → Prop}
    (hlasts : ∀ a s t, d.steps s t → post a s → post a t) :
    ∀ (list : List α), (∀ a ∈ list, ∀ t, d.Follows (f a) t fun _ u => post a u) →
      ∀ {s : σ}, d.Follows (list.forM f) s fun _ t => ∀ a ∈ list, post a t
  | [],        _,  _ => follows_pure nofun
  | a :: rest, hf, s => by
      refine (hf a List.mem_cons_self s).bind fun _ t _ ht hpost hs => ?_
      refine Ensures.mono (Follows.forM_all hlasts rest
        (fun b hb => hf b (List.mem_cons_of_mem _ hb)) hs) (fun _ u hu => ?_) fun _ _ hfault => hfault
      refine ⟨hu.1, fun b hb => ?_⟩
      rcases List.mem_cons.mp hb with rfl | hb
      · exact hlasts b t u hu.1 hpost
      · exact hu.2 b hb

end Discipline

end SymbolGraph
