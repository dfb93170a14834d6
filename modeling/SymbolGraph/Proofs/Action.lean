import Mathlib.Order.Defs.Unbundled
import SymbolGraph.Action

/-!
# Proofs — what an action ensures

`Ensures act s post fail` says how `act` ends when it is run from `s`: well, with `post` of its
result and the state it leaves, or with a fault and `fail` of the two.  Both ends matter, because an
action that fails has still done what it did before failing.

* `bind_eq_ok` and its companions: an action ends well if its parts do.
* `ensures_bind` and its companions take an action apart along its text.
* `Ensures.mono`: weaker ends.
* `final`: where an action ends, and `Ensures.final`: what holds there however it ended.
* `ending?`, `outcome?`: how an action ends well, for actions that can be run.
* `Ensures.forM`: a loop keeps what each of its rounds keeps; the assertion may speak of the rounds
  still to come.
* `ensures_onFailure`, `ensures_andThen`: tidying up after an action that may have failed.
* `Does leads plain`: an action whose faults are `plain` and never undo what `leads` records.  Its
  descriptions compose: `Does.bind`, `Does.forM`.
* `Stays rel`: an action that leads along `rel` from wherever it starts and however it ends.
-/

namespace SymbolGraph.Action

variable {ε σ τ α β : Type}

/-- Run from `s`, the action ends well with `post` or fails with `fail`. -/
def Ensures (act : EStateM ε σ α) (s : σ) (post : α → σ → Prop) (fail : ε → σ → Prop) : Prop :=
  match act s with
  | .ok a t    => post a t
  | .error e t => fail e t

variable {act : EStateM ε σ α} {s : σ} {post post' : α → σ → Prop} {fail fail' : ε → σ → Prop}

/-- What is ensured, is ensured with less said. -/
theorem Ensures.mono (h : Ensures act s post fail) (hp : ∀ a t, post a t → post' a t)
    (hf : ∀ e t, fail e t → fail' e t) : Ensures act s post' fail' := by
  unfold Ensures at h ⊢
  cases hact : act s with
  | ok a t =>
      rw [hact] at h
      exact hp a t h
  | error e t =>
      rw [hact] at h
      exact hf e t h

/-- Two descriptions of one action hold together. -/
theorem Ensures.and (h : Ensures act s post fail) (h' : Ensures act s post' fail') :
    Ensures act s (fun a t => post a t ∧ post' a t) fun e t => fail e t ∧ fail' e t := by
  unfold Ensures at *
  cases hact : act s with
  | ok a t => simp_all
  | error e t => simp_all

/-- An action does what it does. -/
theorem ensures_self : Ensures act s (fun a t => act s = .ok a t) fun e t => act s = .error e t := by
  unfold Ensures
  cases act s with
  | ok a t => rfl
  | error e t => rfl

/-- Every action ends one way or the other. -/
theorem ensures_true (act : EStateM ε σ α) (s : σ) :
    Ensures act s (fun _ _ => True) fun _ _ => True := by
  unfold Ensures
  cases act s with
  | ok a t => trivial
  | error e t => trivial

/-- What is ensured holds of the value of a run that ended well. -/
theorem Ensures.of_ok (h : Ensures act s post fail) {a : α} {t : σ} (hact : act s = .ok a t) :
    post a t := by
  unfold Ensures at h
  rw [hact] at h
  exact h

/-- What is ensured holds of the fault of a run that failed. -/
theorem Ensures.of_error (h : Ensures act s post fail) {e : ε} {t : σ}
    (hact : act s = .error e t) : fail e t := by
  unfold Ensures at h
  rw [hact] at h
  exact h

/-- The state that an action ends in, well or not. -/
def final : EStateM.Result ε σ α → σ
  | .ok _ t    => t
  | .error _ t => t

/-- What is ensured at both ends holds in the end. -/
theorem Ensures.final {post : σ → Prop}
    (h : Ensures act s (fun _ t => post t) fun _ t => post t) : post (final (act s)) := by
  cases hact : act s with
  | ok a t => exact h.of_ok hact
  | error e t => exact h.of_error hact

/-- The state in which an action ends well. -/
def ending? (act : EStateM ε σ α) (s : σ) : Option σ :=
  match act s with
  | .ok _ t    => some t
  | .error _ _ => none

/-- There is such a state exactly where the action ends well. -/
theorem ending?_eq_some {t : σ} : ending? act s = some t ↔ ∃ a, act s = .ok a t := by
  unfold ending?
  cases act s with
  | ok a u => simp
  | error e u => simp

/-- The result of an action that ends well, and the state in which it ends. -/
def outcome? (act : EStateM ε σ α) (s : σ) : Option (α × σ) :=
  match act s with
  | .ok a t    => some (a, t)
  | .error _ _ => none

/-- There is such a result exactly where the action ends with it. -/
theorem outcome?_eq_some {r : α × σ} : outcome? act s = some r ↔ act s = .ok r.1 r.2 := by
  unfold outcome?
  cases act s with
  | ok a u => simp [Prod.ext_iff]
  | error e u => simp

/-! ### Running an action -/

/-- Returning a value leaves the state as it is. -/
theorem pure_run (a : α) (s : σ) : (pure a : EStateM ε σ α) s = .ok a s := rfl

/-- So does failing. -/
theorem throw_run (e : ε) (s : σ) : (throw e : EStateM ε σ α) s = .error e s := rfl

/-- A state that is looked at is handed on. -/
theorem get_bind_run (f : σ → EStateM ε σ α) (s : σ) : (get >>= f) s = f s s := rfl

/-- A state that is changed is handed on. -/
theorem modify_bind_run (g : σ → σ) (f : Unit → EStateM ε σ α) (s : σ) :
    (modify g >>= f) s = f () (g s) := rfl

/-- After a success, what comes next goes on. -/
theorem bind_run_ok {a : α} {t : σ} (h : act s = .ok a t) (f : α → EStateM ε σ β) :
    (act >>= f) s = f a t := by
  simp only [bind, EStateM.bind, h]

/-! ### Ending well -/

section EndsWell

variable {u : σ}

/-- A sequence ends well where both of its parts do. -/
theorem bind_eq_ok {f : α → EStateM ε σ β} {b : β} :
    (act >>= f) s = .ok b u ↔ ∃ a t, act s = .ok a t ∧ f a t = .ok b u := by
  simp only [bind, EStateM.bind]
  cases act s with
  | ok a t =>
      refine ⟨fun h => ⟨a, t, rfl, h⟩, fun ⟨_, _, heq, h⟩ => ?_⟩
      cases heq
      exact h
  | error e t => simp

/-- Dropping the value changes nothing else. -/
theorem discard_eq_ok : discard act s = .ok () u ↔ ∃ a, act s = .ok a u := by
  simp only [discard, Functor.discard, Functor.mapConst, EStateM.map, Function.comp]
  cases act s with
  | ok a t => simp
  | error e t => simp

/-- One action and then another end well if both do. -/
theorem andThen_eq_ok {act last : EStateM ε σ Unit} :
    andThen act last s = .ok () u ↔ ∃ t, act s = .ok () t ∧ last t = .ok () u := by
  unfold andThen attempt
  simp only [bind, EStateM.bind]
  cases act s with
  | ok a t =>
      cases hlast : last t with
      | ok a' v => simp [hlast, ofExcept, pure_run]
      | error e v => simp [hlast, ofExcept, pure_run, throw_run]
  | error e t =>
      cases hlast : last t with
      | ok a' v => simp [hlast, ofExcept, throw_run]
      | error e' v => simp [hlast, ofExcept, throw_run]

/-- An action on a part ends well where it does so on that part, which is then put back. -/
theorem onPart_eq_ok {part : σ → τ} {replace : τ → σ → σ} {act : EStateM ε τ α} {a : α} :
    onPart part replace act s = .ok a u ↔ ∃ t, act (part s) = .ok a t ∧ u = replace t s := by
  unfold onPart
  cases act (part s) with
  | ok b t =>
      dsimp only
      constructor
      · intro h
        cases h
        exact ⟨t, rfl, rfl⟩
      · rintro ⟨_, heq, rfl⟩
        cases heq
        rfl
  | error e t => simp

end EndsWell

/-! ### Taking an action apart -/

theorem ensures_pure {a : α} : Ensures (pure a) s post fail ↔ post a s := Iff.rfl

theorem ensures_throw {e : ε} : Ensures (throw e : EStateM ε σ α) s post fail ↔ fail e s :=
  Iff.rfl

theorem ensures_get {post : σ → σ → Prop} : Ensures get s post fail ↔ post s s := Iff.rfl

theorem ensures_modify {f : σ → σ} {post : Unit → σ → Prop} :
    Ensures (modify f) s post fail ↔ post () (f s) := Iff.rfl

/-- What a sequence ensures, its first part ensures of what comes next. -/
theorem ensures_bind {f : α → EStateM ε σ β} {post : β → σ → Prop} :
    Ensures (act >>= f) s post fail ↔
      Ensures act s (fun a t => Ensures (f a) t post fail) fail := by
  simp only [Ensures, bind, EStateM.bind]
  cases act s <;> rfl

/-- Two actions in sequence do the same if the first ones do, and the second ones from wherever the
first ones end. -/
theorem bind_eq_of {act' : EStateM ε σ α} {f f' : α → EStateM ε σ β} (hact : act s = act' s)
    (h : Ensures act s (fun a t => f a t = f' a t) fun _ _ => True) :
    (act >>= f) s = (act' >>= f') s := by
  simp only [Ensures, bind, EStateM.bind, ← hact] at h ⊢
  cases hrun : act s with
  | ok a t =>
      rw [hrun] at h
      exact h
  | error e t => rfl

/-- Saying how an action ended. -/
theorem attempt_eq_of {act' : EStateM ε σ α} (hact : act s = act' s) :
    attempt act s = attempt act' s := by
  unfold attempt
  rw [hact]

/-- What is ensured without the value, is ensured when the value is dropped. -/
theorem ensures_discard {post : Unit → σ → Prop} :
    Ensures (discard act) s post fail ↔ Ensures act s (fun _ t => post () t) fail := by
  simp only [Ensures, discard, Functor.discard, Functor.mapConst, EStateM.map, Function.comp]
  cases act s <;> rfl

theorem ensures_ofExcept_ok {a : α} :
    Ensures (ofExcept (.ok a) : EStateM ε σ α) s post fail ↔ post a s := Iff.rfl

theorem ensures_ofExcept_error {e : ε} :
    Ensures (ofExcept (.error e) : EStateM ε σ α) s post fail ↔ fail e s := Iff.rfl

/-- An action on a part ensures what it ensures of that part, put back in either case. -/
theorem ensures_onPart {part : σ → τ} {replace : τ → σ → σ} {act : EStateM ε τ α} :
    Ensures (onPart part replace act) s post fail ↔
      Ensures act (part s) (fun a t => post a (replace t s)) fun e t => fail e (replace t s) := by
  simp only [Ensures, onPart]
  cases act (part s) <;> rfl

/-- An action that cannot fail is put back in any case. -/
theorem ensures_onPartSafely {part : σ → τ} {replace : τ → σ → σ} {act : StateM τ α} :
    Ensures (onPartSafely part replace act : EStateM ε σ α) s post fail ↔
      post (act (part s)).1 (replace (act (part s)).2 s) := Iff.rfl

/-- A fault that is caught counts as a value. -/
theorem ensures_attempt {post : Except ε α → σ → Prop} :
    Ensures (attempt act) s post fail ↔
      Ensures act s (fun a t => post (.ok a) t) fun e t => post (.error e) t := by
  simp only [Ensures, attempt]
  cases act s <;> rfl

/-! ### Tidying up -/

/-- Tidying up ensures the failure that it is done after. -/
theorem ensures_onFailure {tidy : EStateM ε σ Unit} :
    Ensures (onFailure act tidy) s post fail ↔
      Ensures act s post fun e t => Ensures tidy t (fun _ u => fail e u) fail := by
  unfold onFailure
  rw [ensures_bind, ensures_attempt]
  refine ⟨fun h => h.mono (fun _ _ h => h) fun e t h => ?_,
    fun h => h.mono (fun _ _ h => h) fun e t h => ?_⟩
  · rw [ensures_bind] at h
    exact h
  · rw [ensures_bind]
    exact h

/-- The second action is run however the first one ended, and the first fault is reported. -/
theorem ensures_andThen {act last : EStateM ε σ Unit} {post : Unit → σ → Prop} :
    Ensures (andThen act last) s post fail ↔
      Ensures act s (fun _ t => Ensures last t post fail)
        fun e t => Ensures last t (fun _ u => fail e u) fun _ u => fail e u := by
  unfold andThen
  simp only [ensures_bind, ensures_attempt, ensures_ofExcept_ok, ensures_ofExcept_error]

/-! ### Loops -/

/-- A loop over a list, by an assertion about the rounds still to come. -/
theorem Ensures.forM {f : α → EStateM ε σ PUnit} (inv : List α → σ → Prop)
    (step : ∀ a rest t, inv (a :: rest) t → Ensures (f a) t (fun _ u => inv rest u) fail) :
    ∀ {l : List α} {s : σ}, inv l s → Ensures (l.forM f) s (fun _ t => inv [] t) fail
  | [], _, h => h
  | a :: rest, s, h => by
      show Ensures (f a >>= fun _ => rest.forM f) s _ _
      rw [ensures_bind]
      exact (step a rest s h).mono (fun _ _ h => Ensures.forM inv step h) fun _ _ h => h

/-- Loops do the same if their rounds do. -/
theorem forM_congr {f f' : α → EStateM ε σ PUnit} {list : List α} (h : ∀ a ∈ list, f a = f' a) :
    list.forM f = list.forM f' := by
  induction list with
  | nil => rfl
  | cons a rest ih =>
      show (f a >>= fun _ => rest.forM f) = f' a >>= fun _ => rest.forM f'
      rw [h a List.mem_cons_self, ih fun b hb => h b (List.mem_cons_of_mem _ hb)]

/-! ### Failing along the way -/

section Does

variable {leads : σ → σ → Prop} {plain : ε → Prop}

/-- The action ends well with `post`; a fault is `plain`, and the state it leaves was led to. -/
def Does (leads : σ → σ → Prop) (plain : ε → Prop) (act : EStateM ε σ α) (s : σ)
    (post : α → σ → Prop) : Prop :=
  Ensures act s post fun e t => leads s t ∧ plain e

/-- What an action does, it does with less said of its value. -/
theorem Does.mono (h : Does leads plain act s post) (hp : ∀ a t, post a t → post' a t) :
    Does leads plain act s post' :=
  Ensures.mono h hp fun _ _ h => h

/-- What comes next goes on where the first has led. -/
theorem Does.bind [IsTrans σ leads] {f : α → EStateM ε σ β} {post' : β → σ → Prop}
    (h : Does leads plain act s post)
    (hf : ∀ a t, post a t → leads s t ∧ Does leads plain (f a) t post') :
    Does leads plain (act >>= f) s post' := by
  unfold Does
  rw [ensures_bind]
  refine Ensures.mono h (fun a t ht => ?_) fun _ _ h => h
  obtain ⟨hst, hfa⟩ := hf a t ht
  exact Ensures.mono hfa (fun _ _ h => h) fun e u hu => ⟨IsTrans.trans _ _ _ hst hu.1, hu.2⟩

/-- An action does the same when its value is dropped. -/
theorem Does.discard {post : σ → Prop} (h : Does leads plain act s fun _ t => post t) :
    Does leads plain (discard act) s fun _ t => post t :=
  ensures_discard.mpr h

/-- A loop over a list, by an assertion about the rounds still to come. -/
theorem Does.forM [IsTrans σ leads] {f : α → EStateM ε σ PUnit} (inv : List α → σ → Prop)
    (lead : ∀ rest t, inv rest t → leads s t)
    (step : ∀ a rest t, inv (a :: rest) t → Does leads plain (f a) t fun _ u => inv rest u)
    {l : List α} (h : inv l s) : Does leads plain (l.forM f) s fun _ t => inv [] t := by
  refine Ensures.forM inv (fun a rest t ht => ?_) h
  exact Ensures.mono (step a rest t ht) (fun _ _ h => h)
    fun e u hu => ⟨IsTrans.trans _ _ _ (lead _ t ht) hu.1, hu.2⟩

end Does

/-! ### However it ends -/

section Stays

variable {rel : σ → σ → Prop} {part : σ → τ} {replace : τ → σ → σ}

/-- From wherever the action starts and however it ends, it leads along `rel`. -/
def Stays (rel : σ → σ → Prop) (act : EStateM ε σ α) : Prop :=
  ∀ s, Ensures act s (fun _ t => rel s t) fun _ t => rel s t

/-- What keeps to a relation keeps to a weaker one. -/
theorem Stays.mono {rel' : σ → σ → Prop} (h : Stays rel act) (hr : ∀ s t, rel s t → rel' s t) :
    Stays rel' act :=
  fun s => (h s).mono (fun _ t => hr s t) fun _ t => hr s t

/-- What an action does from the states that are ready. -/
theorem stays_of_ready {ready : σ → Prop}
    (h : ∀ s, ready s → Ensures act s (fun _ t => rel s t) fun _ t => rel s t) :
    Stays (fun s t => ready s → rel s t) act := by
  intro s
  unfold Ensures
  cases hact : act s with
  | ok a t => exact fun hs => (h s hs).of_ok hact
  | error e t => exact fun hs => (h s hs).of_error hact

/-- An action on a part of the state. -/
theorem Stays.onPart {within : τ → τ → Prop} {act : EStateM ε τ α} (h : Stays within act)
    (hr : ∀ s t, within (part s) t → rel s (replace t s)) :
    Stays rel (onPart part replace act) :=
  fun s => ensures_onPart.mpr ((h (part s)).mono (fun _ t => hr s t) fun _ t => hr s t)

theorem stays_onPartSafely {act : StateM τ α} (hr : ∀ s t, rel s (replace t s)) :
    Stays rel (onPartSafely part replace act : EStateM ε σ α) :=
  fun s => ensures_onPartSafely.mpr (hr s _)

/-- A change of the state keeps to what relates every state to its change. -/
theorem stays_modify {f : σ → σ} (h : ∀ s, rel s (f s)) : Stays rel (modify f : EStateM ε σ _) :=
  fun s => ensures_modify.mpr (h s)

/-- Dropping the value moves nothing. -/
theorem Stays.discard (h : Stays rel act) : Stays rel (discard act) :=
  fun s => ensures_discard.mpr (h s)

/-- Catching the fault moves nothing. -/
theorem Stays.attempt (h : Stays rel act) : Stays rel (attempt act) :=
  fun s => ensures_attempt.mpr (h s)

variable [IsPreorder σ rel]

theorem stays_pure {a : α} : Stays rel (pure a : EStateM ε σ α) := fun s =>
  ensures_pure.mpr (refl_of rel s)

theorem stays_throw {e : ε} : Stays rel (throw e : EStateM ε σ α) := fun s =>
  ensures_throw.mpr (refl_of rel s)

theorem stays_get : Stays rel (get : EStateM ε σ σ) := fun s => ensures_get.mpr (refl_of rel s)

/-- A computation without a state moves nothing. -/
theorem stays_ofExcept {result : Except ε α} : Stays rel (ofExcept result) := by
  cases result with
  | ok a => exact stays_pure
  | error e => exact stays_throw

/-- A sequence keeps to what both of its parts keep to. -/
theorem Stays.bind {f : α → EStateM ε σ β} (h : Stays rel act) (hf : ∀ a, Stays rel (f a)) :
    Stays rel (act >>= f) := by
  intro s
  refine ensures_bind.mpr ((h s).mono (fun a t hst => ?_) fun _ _ hst => hst)
  exact (hf a t).mono (fun _ u htu => trans_of rel hst htu) fun _ u htu => trans_of rel hst htu

/-- A list keeps to what every round keeps to. -/
theorem Stays.forM {f : α → EStateM ε σ PUnit} {list : List α} (hf : ∀ a ∈ list, Stays rel (f a)) :
    Stays rel (list.forM f) := by
  induction list with
  | nil => exact stays_pure
  | cons a rest ih =>
      exact Stays.bind (hf a List.mem_cons_self) fun _ =>
        ih fun b hb => hf b (List.mem_cons_of_mem _ hb)

/-- What comes last is done after a failure as well, and keeps to the relation there. -/
theorem Stays.andThen {act last : EStateM ε σ Unit} (h : Stays rel act) (hlast : Stays rel last) :
    Stays rel (andThen act last) :=
  h.attempt.bind fun _ => hlast.attempt.bind fun _ => stays_ofExcept.bind fun _ => stays_ofExcept

end Stays

end SymbolGraph.Action
